import GccCil.Gcc.DivDouble

/-!
# The division of magnitudes is exact

Short and long division both compute the quotient of the operands as unsigned
numbers.  For the long division one round of the main loop is shown to leave
the next quotient digit and the remainder of the window it works on; the loop
then follows by induction on the digits that are left.
-/

namespace GccCil.Gcc.FoldConst

open GccCil.Lib DoubleInt

variable {half : Nat}

/-- The number in `count` half words from position `offset` up. -/
def windowValue (words : Digits half) (offset count : Nat) : Nat :=
  digitsValue (fun i => words (offset + i)) count

theorem windowValue_zero (words : Digits half) (count : Nat) :
    windowValue words 0 count = digitsValue words count :=
  digitsValue_congr fun i _ => congrArg words (Nat.zero_add i)

theorem windowValue_succ (words : Digits half) (offset count : Nat) :
    windowValue words offset (count + 1) =
      (words offset).toNat + 2 ^ half * windowValue words (offset + 1) count := by
  have shifted : windowValue words (offset + 1) count =
      digitsValue (fun i => words (offset + (1 + i))) count :=
    digitsValue_congr fun i _ => congrArg words (Nat.add_assoc _ _ _)
  rw [shifted, windowValue, Nat.add_comm count 1, digitsValue_append]
  simp [digitsValue, numeral_succ]

theorem windowValue_last (words : Digits half) (offset count : Nat) :
    windowValue words offset (count + 1) =
      windowValue words offset count +
        (words (offset + count)).toNat * (2 ^ half) ^ count := rfl

theorem windowValue_congr {first second : Digits half} {offset count : Nat}
    (same : ∀ i < count, first (offset + i) = second (offset + i)) :
    windowValue first offset count = windowValue second offset count :=
  digitsValue_congr same

theorem digitsValue_window (words : Digits half) (low high : Nat) :
    digitsValue words (low + high) =
      digitsValue words low + (2 ^ half) ^ low * windowValue words low high :=
  digitsValue_append words low high

theorem windowValue_lt {words : Digits half} {offset count : Nat}
    (digits : ∀ i < count, IsDigit (words (offset + i))) :
    windowValue words offset count < (2 ^ half) ^ count :=
  numeral_lt digits

theorem shortStep {digit carry den : Nat} (digitHalf : digit < 2 ^ half) (below : carry < den)
    (denHalf : den < 2 ^ half) :
    digit + carry * 2 ^ half < 2 ^ (2 * half) ∧ (digit + carry * 2 ^ half) / den < 2 ^ half := by
  have scaled : carry * 2 ^ half + 2 ^ half ≤ den * 2 ^ half := by
    have := Nat.mul_le_mul_right (2 ^ half) (Nat.succ_le_of_lt below)
    rwa [Nat.succ_mul] at this
  refine ⟨?_, ?_⟩
  · have := Nat.mul_le_mul_right (2 ^ half) (Nat.le_of_lt denHalf)
    rw [pow_two_mul]
    omega
  · apply Nat.div_lt_of_lt_mul
    omega

theorem shortDivide_spec (positive : 0 < half) {num : Digits half} {lden : BitVec (2 * half)}
    (digits : ∀ i, IsDigit (num i)) (denPositive : 0 < lden.toNat) (denHalf : IsDigit lden)
    {count : Nat} (atMost : count ≤ 4) :
    (∀ i, IsDigit ((shortDivide num lden count).1 i)) ∧
      (shortDivide num lden count).2.toNat < lden.toNat ∧
      windowValue num (4 - count) count =
        windowValue (shortDivide num lden count).1 (4 - count) count * lden.toNat +
          (shortDivide num lden count).2.toNat := by
  induction count with
  | zero =>
    refine ⟨fun i => by simp [shortDivide, IsDigit], by simpa [shortDivide], ?_⟩
    simp [shortDivide, windowValue, digitsValue]
  | succ count ih =>
    obtain ⟨quoDigits, below, total⟩ := ih (by omega)
    obtain ⟨fits, quotient⟩ := shortStep (digits (3 - count)) below denHalf
    have work : (num (3 - count) + (shortDivide num lden count).2 * base half).toNat =
        (num (3 - count)).toNat + (shortDivide num lden count).2.toNat * 2 ^ half :=
      toNat_pair positive (digits _) (Nat.lt_trans below denHalf)
    have atDigit : (shortDivide num lden (count + 1)).1 (3 - count) =
        (num (3 - count) + (shortDivide num lden count).2 * base half) / lden :=
      Function.update_self _ _ _
    have quoDigit : ((shortDivide num lden (count + 1)).1 (3 - count)).toNat =
        ((num (3 - count)).toNat + (shortDivide num lden count).2.toNat * 2 ^ half) /
          lden.toNat := by
      rw [atDigit, BitVec.toNat_udiv, work]
    have remDigit : (shortDivide num lden (count + 1)).2.toNat =
        ((num (3 - count)).toNat + (shortDivide num lden count).2.toNat * 2 ^ half) %
          lden.toNat := by
      rw [shortDivide, BitVec.toNat_umod, work]
    refine ⟨?_, ?_, ?_⟩
    · intro i
      by_cases written : i = 3 - count
      · rw [written, IsDigit, quoDigit]
        exact quotient
      · rw [shortDivide]
        dsimp only
        rw [Function.update_of_ne written]
        exact quoDigits i
    · rw [remDigit]
      exact Nat.mod_lt _ denPositive
    · have position : 4 - (count + 1) = 3 - count := by omega
      have next : 3 - count + 1 = 4 - count := by omega
      have unchanged : windowValue (shortDivide num lden (count + 1)).1 (4 - count) count =
          windowValue (shortDivide num lden count).1 (4 - count) count :=
        windowValue_congr fun i _ => Function.update_of_ne (by omega) _ _
      rw [position, windowValue_succ, windowValue_succ, next, unchanged, total, quoDigit,
        remDigit]
      have division := Nat.div_add_mod
        ((num (3 - count)).toNat + (shortDivide num lden count).2.toNat * 2 ^ half) lden.toNat
      linear_combination -division

/-- What the main loop knows of the divisor: its leading digit is at least half
the base. -/
structure NormalizedDivisor (den : Digits half) (hiSig : Nat) : Prop where
  positive : 0 < half
  digits : ∀ i, IsDigit (den i)
  long : 0 < hiSig
  normalized : 2 ^ half ≤ 2 * (den hiSig).toNat

theorem toNat_mul_add {first second third : BitVec (2 * half)} (firstHalf : IsDigit first)
    (secondHalf : IsDigit second) (thirdHalf : IsDigit third) :
    (first * second + third).toNat = first.toNat * second.toNat + third.toNat ∧
      first.toNat * second.toNat + third.toNat + 2 ^ half ≤ 2 ^ half * 2 ^ half := by
  have product : first.toNat * second.toNat ≤ (2 ^ half - 1) * (2 ^ half - 1) :=
    Nat.mul_le_mul (Nat.le_sub_one_of_lt firstHalf) (Nat.le_sub_one_of_lt secondHalf)
  have room : (2 ^ half - 1) * (2 ^ half - 1) + (2 ^ half - 1) + 2 ^ half =
      2 ^ half * 2 ^ half := by
    obtain ⟨last, lastEq⟩ : ∃ last, 2 ^ half = last + 1 :=
      ⟨2 ^ half - 1, (Nat.sub_add_cancel (Nat.two_pow_pos half)).symm⟩
    rw [lastEq, Nat.add_sub_cancel]
    ring
  have basePositive := Nat.two_pow_pos half
  unfold IsDigit at thirdHalf
  have bound : first.toNat * second.toNat + third.toNat + 2 ^ half ≤ 2 ^ half * 2 ^ half := by
    omega
  refine ⟨?_, bound⟩
  rw [BitVec.toNat_add, BitVec.toNat_mul, Nat.mod_add_mod, pow_two_mul,
    Nat.mod_eq_of_lt (by omega)]

theorem sub_halves (positive : 0 < half) {first second : BitVec (2 * half)}
    (firstHalf : IsDigit first) (secondHalf : IsDigit second) :
    (lowpart (first - second)).toNat + second.toNat = first.toNat +
        2 ^ half * (if highpart (first - second) ≠ 0#_ then 1 else 0) ∧
      (highpart (first - second) ≠ 0#_ → first.toNat < second.toNat) := by
  have basePositive := Nat.two_pow_pos half
  have two : 2 ≤ 2 ^ half := by
    calc 2 = 2 ^ 1 := rfl
      _ ≤ 2 ^ half := Nat.pow_le_pow_right (by decide) positive
  unfold IsDigit at firstHalf secondHalf
  have high : highpart (first - second) ≠ 0#_ ↔ (first - second).toNat / 2 ^ half ≠ 0 := by
    rw [← toNat_highpart, ← BitVec.toNat_zero (w := 2 * half)]
    exact not_congr BitVec.toNat_inj.symm
  rw [toNat_lowpart positive]
  simp only [high]
  rcases Nat.lt_or_ge first.toNat second.toNat with below | above
  · have difference : (first - second).toNat =
        2 ^ half * (2 ^ half - 1) + (2 ^ half - (second.toNat - first.toNat)) := by
      rw [BitVec.toNat_sub_of_lt below, pow_two_mul, Nat.mul_sub, Nat.mul_one]
      have := Nat.mul_le_mul_left (2 ^ half) two
      omega
    rw [difference, Nat.mul_add_mod, Nat.mul_add_div basePositive,
      Nat.mod_eq_of_lt (by omega), Nat.div_eq_of_lt (by omega)]
    rw [if_pos (by omega)]
    exact ⟨by omega, fun _ => below⟩
  · have difference : (first - second).toNat = first.toNat - second.toNat :=
      BitVec.toNat_sub_of_le above
    rw [difference, Nat.mod_eq_of_lt (by omega), Nat.div_eq_of_lt (by omega)]
    simp only [ne_eq, not_true_eq_false, if_false, false_implies, and_true]
    omega

theorem subtractStep_spec (positive : 0 < half) {quoEst num carry : BitVec (2 * half)}
    {den : Digits half} {j : Nat} (quoHalf : IsDigit quoEst) (denHalf : IsDigit (den j))
    (numHalf : IsDigit num) (carryHalf : IsDigit carry) :
    IsDigit (subtractStep quoEst den j num carry).1 ∧
      IsDigit (subtractStep quoEst den j num carry).2 ∧
      (subtractStep quoEst den j num carry).1.toNat +
          (quoEst.toNat * (den j).toNat + carry.toNat) =
        num.toNat + 2 ^ half * (subtractStep quoEst den j num carry).2.toNat := by
  obtain ⟨product, room⟩ := toNat_mul_add quoHalf denHalf carryHalf
  have parts := lowpart_add_highpart positive (quoEst * den j + carry)
  rw [product] at parts
  obtain ⟨difference, borrows⟩ := sub_halves positive numHalf
    (isDigit_lowpart positive (quoEst * den j + carry))
  have highDigit := isDigit_highpart (quoEst * den j + carry)
  have wordRoom : 2 ^ half < 2 ^ (2 * half) := Nat.pow_lt_pow_right (by decide) (by omega)
  have carried : (subtractStep quoEst den j num carry).2.toNat =
      (highpart (quoEst * den j + carry)).toNat +
        if highpart (num - lowpart (quoEst * den j + carry)) ≠ 0#_ then 1 else 0 := by
    unfold IsDigit at highDigit
    rw [subtractStep]
    dsimp only
    split
    · rw [BitVec.toNat_add, BitVec.toNat_ofNat,
        Nat.mod_eq_of_lt (Nat.one_lt_two_pow (by omega)), Nat.mod_eq_of_lt (by omega)]
    · rw [BitVec.add_zero, Nat.add_zero]
  refine ⟨isDigit_lowpart positive _, ?_, ?_⟩
  · rw [IsDigit, carried]
    split
    · rename_i borrow
      have nonzero := borrows borrow
      have enough : 2 ^ half * ((highpart (quoEst * den j + carry)).toNat + 1) <
          2 ^ half * 2 ^ half := by
        rw [Nat.mul_succ]
        omega
      exact Nat.lt_of_mul_lt_mul_left enough
    · exact highDigit
  · rw [carried, Nat.mul_add, ← parts]
    have first : (subtractStep quoEst den j num carry).1 =
        lowpart (num - lowpart (quoEst * den j + carry)) := rfl
    rw [first]
    omega

theorem addBackStep_spec (positive : 0 < half) {num carry : BitVec (2 * half)}
    {den : Digits half} {j : Nat} (denHalf : IsDigit (den j)) (numHalf : IsDigit num)
    (carryHalf : IsDigit carry) :
    IsDigit (addBackStep den j num carry).1 ∧ IsDigit (addBackStep den j num carry).2 ∧
      (addBackStep den j num carry).1.toNat + 2 ^ half * (addBackStep den j num carry).2.toNat =
        num.toNat + (den j).toNat + carry.toNat := by
  refine ⟨isDigit_lowpart positive _, isDigit_highpart _, ?_⟩
  have two : 2 ≤ 2 ^ half := by
    calc 2 = 2 ^ 1 := rfl
      _ ≤ 2 ^ half := Nat.pow_le_pow_right (by decide) positive
  have room : 3 * (2 ^ half - 1) < 2 ^ half * 2 ^ half := by
    obtain ⟨last, lastEq⟩ : ∃ last, 2 ^ half = last + 2 := ⟨2 ^ half - 2, by omega⟩
    rw [lastEq]
    have square : (last + 2) * (last + 2) = last * last + 4 * last + 4 := by ring
    have nonneg := Nat.zero_le (last * last)
    omega
  unfold IsDigit at denHalf numHalf carryHalf
  rw [addBackStep]
  dsimp only
  rw [lowpart_add_highpart positive, BitVec.toNat_add, BitVec.toNat_add, Nat.mod_add_mod,
    pow_two_mul, Nat.mod_eq_of_lt (by omega)]

theorem scaleStep_spec (positive : 0 < half) {scale digit carry : BitVec (2 * half)} (j : Nat)
    (scaleHalf : IsDigit scale) (digitHalf : IsDigit digit) (carryHalf : IsDigit carry) :
    IsDigit (scaleStep scale j digit carry).1 ∧ IsDigit (scaleStep scale j digit carry).2 ∧
      (scaleStep scale j digit carry).1.toNat +
        2 ^ half * (scaleStep scale j digit carry).2.toNat =
          scale.toNat * digit.toNat + carry.toNat := by
  refine ⟨isDigit_lowpart positive _, isDigit_highpart _, ?_⟩
  rw [scaleStep]
  dsimp only
  rw [lowpart_add_highpart positive, (toNat_mul_add digitHalf scaleHalf carryHalf).1, Nat.mul_comm]

theorem subtract_window (positive : 0 < half) (i count : Nat) {quoEst : BitVec (2 * half)}
    {num den : Digits half} (quoHalf : IsDigit quoEst) (denDigits : ∀ j, IsDigit (den j))
    (numDigits : ∀ j < count, IsDigit (num (i + j))) :
    (∀ j < count, IsDigit ((carryPass (subtractStep quoEst den) i num 0#_ count).1 (i + j))) ∧
      IsDigit (carryPass (subtractStep quoEst den) i num 0#_ count).2 ∧
      windowValue (carryPass (subtractStep quoEst den) i num 0#_ count).1 i count +
          quoEst.toNat * digitsValue den count =
        windowValue num i count + (2 ^ half) ^ count *
          (carryPass (subtractStep quoEst den) i num 0#_ count).2.toNat := by
  have initial : IsDigit 0#(2 * half) := by simp [IsDigit]
  obtain ⟨digits, carried, total⟩ := carryPass_spec (subtractStep quoEst den) i num
    (fun x => (x.toNat : Int)) (fun x => -(x.toNat : Int)) (2 ^ half : Nat)
    (fun j => ((num (i + j)).toNat : Int) + -(quoEst.toNat : Int) * ((den j).toNat : Int)) initial
    (fun j below carry carryHalf => by
      obtain ⟨low, high, balance⟩ :=
        subtractStep_spec positive quoHalf (denDigits j) (numDigits j below) carryHalf
      refine ⟨low, high, ?_⟩
      zify at balance
      push_cast
      linear_combination balance)
  refine ⟨digits, carried, ?_⟩
  rw [numeral_add, numeral_mul, ← natCast_numeral, ← natCast_numeral, ← natCast_numeral,
    BitVec.toNat_zero] at total
  zify
  simp only [windowValue, digitsValue]
  push_cast at total ⊢
  linear_combination total

theorem addBack_window (positive : 0 < half) (i count : Nat) {num den : Digits half}
    (denDigits : ∀ j, IsDigit (den j)) (numDigits : ∀ j < count, IsDigit (num (i + j))) :
    (∀ j < count, IsDigit ((carryPass (addBackStep den) i num 0#_ count).1 (i + j))) ∧
      windowValue (carryPass (addBackStep den) i num 0#_ count).1 i count +
          (2 ^ half) ^ count * (carryPass (addBackStep den) i num 0#_ count).2.toNat =
        windowValue num i count + digitsValue den count := by
  obtain ⟨digits, _, total⟩ := carryPass_exact (addBackStep den) i count num
    (fun j => (num (i + j)).toNat + (den j).toNat)
    (fun j below carry carryHalf =>
      addBackStep_spec positive (denDigits j) (numDigits j below) carryHalf)
  rw [numeral_add] at total
  exact ⟨digits, total⟩

theorem scale_window (positive : 0 < half) (count : Nat) {scale : BitVec (2 * half)}
    {words : Digits half} (scaleHalf : IsDigit scale) (digits : ∀ j, IsDigit (words j)) :
    (∀ j < count, IsDigit ((carryPass (scaleStep scale) 0 words 0#_ count).1 j)) ∧
      IsDigit (carryPass (scaleStep scale) 0 words 0#_ count).2 ∧
      digitsValue (carryPass (scaleStep scale) 0 words 0#_ count).1 count +
          (2 ^ half) ^ count * (carryPass (scaleStep scale) 0 words 0#_ count).2.toNat =
        scale.toNat * digitsValue words count := by
  obtain ⟨scaled, carry, total⟩ := carryPass_exact (scaleStep scale) 0 count words
    (fun j => scale.toNat * (words (0 + j)).toNat)
    (fun j _ carry carryHalf => scaleStep_spec positive j scaleHalf (digits _) carryHalf)
  rw [numeral_mul] at total
  simp only [Nat.zero_add] at scaled total
  exact ⟨scaled, carry, total⟩

theorem leading_digits (words : Digits half) (i count : Nat) :
    windowValue words i (count + 3) =
      windowValue words i count + (((words (i + count + 2)).toNat * 2 ^ half +
        (words (i + count + 1)).toNat) * 2 ^ half + (words (i + count)).toNat) *
          (2 ^ half) ^ count := by
  rw [windowValue_last, windowValue_last, windowValue_last, ← Nat.add_assoc, ← Nat.add_assoc,
    pow_succ, pow_succ]
  ring

theorem estimate_toNat (positive : 0 < half) {num den : Digits half} {numHiSig hiSig : Nat}
    (numDigits : ∀ j, numHiSig ≤ j + 2 → j ≤ numHiSig → IsDigit (num j))
    (denDigits : ∀ j, IsDigit (den j)) (nonzero : 0 < (den hiSig).toNat)
    (fits : (num numHiSig).toNat ≤ (den hiSig).toNat) :
    ∃ first rest, first < 2 ^ half ∧
      (num numHiSig).toNat * 2 ^ half + (num (numHiSig - 1)).toNat =
        first * (den hiSig).toNat + rest ∧
      (num numHiSig ≠ den hiSig →
        first = ((num numHiSig).toNat * 2 ^ half + (num (numHiSig - 1)).toNat) /
          (den hiSig).toNat) ∧
      (num numHiSig = den hiSig → first = 2 ^ half - 1) ∧
      (estimate num den numHiSig hiSig).toNat =
        if rest < 2 ^ half ∧
            rest * 2 ^ half + (num (numHiSig - 2)).toNat < (den (hiSig - 1)).toNat * first then
          first - 1
        else first := by
  have firstDigit := numDigits numHiSig (by omega) (by omega)
  have secondDigit := numDigits (numHiSig - 1) (by omega) (by omega)
  have thirdDigit := numDigits (numHiSig - 2) (by omega) (by omega)
  have topDigit := denDigits hiSig
  have basePositive := Nat.two_pow_pos half
  have work : (num numHiSig * base half + num (numHiSig - 1)).toNat =
      (num numHiSig).toNat * 2 ^ half + (num (numHiSig - 1)).toNat := by
    rw [BitVec.add_comm, toNat_pair positive secondDigit firstDigit, Nat.add_comm]
  have wordBound := (num numHiSig * base half + num (numHiSig - 1)).isLt
  obtain ⟨quoEst, quoEq⟩ : ∃ quoEst, quoEst = if num numHiSig ≠ den hiSig then
    (num numHiSig * base half + num (numHiSig - 1)) / den hiSig else base half - 1#_ := ⟨_, rfl⟩
  have ofDiffer (differ : num numHiSig ≠ den hiSig) : quoEst.toNat =
      ((num numHiSig).toNat * 2 ^ half + (num (numHiSig - 1)).toNat) / (den hiSig).toNat := by
    rw [quoEq, if_pos differ, BitVec.toNat_udiv, work]
  have ofSame (same : num numHiSig = den hiSig) : quoEst.toNat = 2 ^ half - 1 := by
    rw [quoEq, if_neg (not_not.mpr same), toNat_base_sub_one positive]
  unfold IsDigit at secondDigit topDigit
  obtain ⟨quoHalf, product⟩ : IsDigit quoEst ∧ quoEst.toNat * (den hiSig).toNat ≤
      (num numHiSig).toNat * 2 ^ half + (num (numHiSig - 1)).toNat := by
    by_cases same : num numHiSig = den hiSig
    · rw [IsDigit, ofSame same, same, Nat.sub_mul, Nat.mul_comm (2 ^ half)]
      omega
    · have less : (num numHiSig).toNat < (den hiSig).toNat :=
        Nat.lt_of_le_of_ne fits fun equal => same (BitVec.eq_of_toNat_eq equal)
      have scaled := Nat.mul_le_mul_right (2 ^ half) (Nat.succ_le_of_lt less)
      rw [Nat.succ_mul] at scaled
      rw [IsDigit, ofDiffer same]
      exact ⟨Nat.div_lt_of_lt_mul (by omega), Nat.div_mul_le_self _ _⟩
  have multiple : (quoEst * den hiSig).toNat = quoEst.toNat * (den hiSig).toNat := by
    rw [BitVec.toNat_mul, Nat.mod_eq_of_lt (by omega)]
  have nextMultiple : (den (hiSig - 1) * quoEst).toNat =
      (den (hiSig - 1)).toNat * quoEst.toNat := by
    have := (toNat_mul_add (denDigits (hiSig - 1)) quoHalf
      (show IsDigit 0#(2 * half) by simp [IsDigit])).1
    simpa using this
  have rest : (num numHiSig * base half + num (numHiSig - 1) - quoEst * den hiSig).toNat =
      (num numHiSig).toNat * 2 ^ half + (num (numHiSig - 1)).toNat -
        quoEst.toNat * (den hiSig).toNat := by
    rw [BitVec.toNat_sub_of_le (by rw [BitVec.le_def, work, multiple]; exact product), work,
      multiple]
  refine ⟨quoEst.toNat, _, quoHalf, (Nat.add_sub_of_le product).symm, ofDiffer, ofSame, ?_⟩
  have unfolded : estimate num den numHiSig hiSig =
      let tmp := num numHiSig * base half + num (numHiSig - 1) - quoEst * den hiSig
      if tmp < base half ∧
          tmp * base half + num (numHiSig - 2) < den (hiSig - 1) * quoEst then quoEst - 1#_
      else quoEst := by
    rw [quoEq]
    rfl
  rw [← rest, unfolded]
  generalize num numHiSig * base half + num (numHiSig - 1) - quoEst * den hiSig = tmp at *
  dsimp only
  have close : tmp < base half ↔ tmp.toNat < 2 ^ half := by
    rw [BitVec.lt_def, toNat_base positive]
  have test (small : tmp.toNat < 2 ^ half) :
      tmp * base half + num (numHiSig - 2) < den (hiSig - 1) * quoEst ↔
        tmp.toNat * 2 ^ half + (num (numHiSig - 2)).toNat <
          (den (hiSig - 1)).toNat * quoEst.toNat := by
    rw [BitVec.lt_def, nextMultiple, BitVec.add_comm, toNat_pair positive thirdDigit small,
      Nat.add_comm]
  by_cases small : tmp.toNat < 2 ^ half
  · simp only [close, small, true_and, test small]
    split
    · rename_i exceeds
      have quoPositive : 0 < quoEst.toNat := by
        rcases Nat.eq_zero_or_pos quoEst.toNat with zero | quoPositive
        · rw [zero, Nat.mul_zero] at exceeds
          exact absurd exceeds (Nat.not_lt_zero _)
        · exact quoPositive
      have one : (1#(2 * half)).toNat = 1 := by
        rw [BitVec.toNat_ofNat, Nat.mod_eq_of_lt (Nat.one_lt_two_pow (by omega))]
      rw [BitVec.toNat_sub_of_le (by rw [BitVec.le_def, one]; exact quoPositive), one]
    · rfl
  · simp only [close, small, false_and, if_false]

theorem estimate_spec {num den : Digits half} {hiSig i : Nat}
    (divisor : NormalizedDivisor den hiSig) (digits : ∀ j < hiSig + 2, IsDigit (num (i + j)))
    (below : windowValue num i (hiSig + 2) < digitsValue den (hiSig + 1) * 2 ^ half) :
    IsDigit (estimate num den (i + hiSig + 1) hiSig) ∧
      windowValue num i (hiSig + 2) <
        ((estimate num den (i + hiSig + 1) hiSig).toNat + 1) * digitsValue den (hiSig + 1) ∧
      ((estimate num den (i + hiSig + 1) hiSig).toNat - 1) * digitsValue den (hiSig + 1) ≤
        windowValue num i (hiSig + 2) := by
  obtain ⟨positive, denDigits, long, normalized⟩ := divisor
  obtain ⟨count, rfl⟩ : ∃ count, hiSig = count + 1 := ⟨hiSig - 1, by omega⟩
  have basePositive := Nat.two_pow_pos half
  have scalePositive : 0 < (2 ^ half) ^ count := Nat.pow_pos basePositive
  have dividend := leading_digits num i count
  have divisorEq : digitsValue den (count + 1 + 1) = digitsValue den count +
      ((den (count + 1)).toNat * 2 ^ half + (den count).toNat) * (2 ^ half) ^ count := by
    simp only [digitsValue, numeral_succ, pow_succ]
    ring
  have dividendLow := windowValue_lt fun j (below : j < count) => digits j (by omega)
  have divisorLow : digitsValue den count < (2 ^ half) ^ count := numeral_lt fun j _ => denDigits j
  have thirdDigit := digits count (by omega)
  have secondDigit := digits (count + 1) (by omega)
  have nextDigit := denDigits count
  rw [← Nat.add_assoc] at secondDigit
  unfold IsDigit at thirdDigit secondDigit nextDigit
  obtain ⟨divisorLower, divisorUpper⟩ := leading_bounds divisorEq divisorLow
  obtain ⟨dividendLower, dividendUpper⟩ := leading_bounds dividend dividendLow
  have fits := leading_le below nextDigit divisorUpper dividendLower
  obtain ⟨first, rest, small, split, ofDiffer, ofSame, estimateEq⟩ :
      ∃ first rest, first < 2 ^ half ∧
        (num (i + count + 2)).toNat * 2 ^ half + (num (i + count + 1)).toNat =
          first * (den (count + 1)).toNat + rest ∧
        (num (i + count + 2) ≠ den (count + 1) →
          first = ((num (i + count + 2)).toNat * 2 ^ half + (num (i + count + 1)).toNat) /
            (den (count + 1)).toNat) ∧
        (num (i + count + 2) = den (count + 1) → first = 2 ^ half - 1) ∧
        (estimate num den (i + count + 2) (count + 1)).toNat =
          if rest < 2 ^ half ∧ rest * 2 ^ half + (num (i + count)).toNat <
            (den count).toNat * first then first - 1 else first := by
    refine estimate_toNat positive (fun j lower upper => ?_) denDigits (by omega) fits
    obtain ⟨offset, rfl⟩ := Nat.exists_eq_add_of_le (show i ≤ j by omega)
    exact digits offset (by omega)
  have notLow : windowValue num i (count + 3) < (first + 1) * digitsValue den (count + 2) := by
    by_cases same : num (i + count + 2) = den (count + 1)
    · rw [ofSame same, Nat.sub_add_cancel basePositive, Nat.mul_comm]
      exact below
    · rw [ofDiffer same]
      have lower : (den (count + 1)).toNat * (2 ^ half * (2 ^ half) ^ count) ≤
          digitsValue den (count + 2) := by
        rw [← Nat.mul_assoc]
        exact Nat.le_trans (Nat.mul_le_mul_right _ (Nat.le_add_right _ _)) divisorLower
      have upper : windowValue num i (count + 3) <
          ((num (i + count + 2)).toNat * 2 ^ half + (num (i + count + 1)).toNat + 1) *
            (2 ^ half * (2 ^ half) ^ count) := by
        refine Nat.lt_of_lt_of_le dividendUpper ?_
        rw [← Nat.mul_assoc]
        apply Nat.mul_le_mul_right
        linarith
      exact lt_succ_div_mul (by omega) lower upper
  have refined := refined_estimate normalized small nextDigit thirdDigit divisorLower
    divisorUpper dividendLower dividendUpper notLow split
  dsimp only at refined
  rw [← estimateEq] at refined
  refine ⟨?_, refined⟩
  rw [IsDigit, show i + (count + 1) + 1 = i + count + 2 by omega, estimateEq]
  split <;> omega

theorem slt_of_digits (positive : 0 < half) {x y : BitVec (2 * half)} (xHalf : IsDigit x)
    (yHalf : IsDigit y) : x.slt y = decide (x.toNat < y.toNat) := by
  unfold IsDigit at xHalf yHalf
  have room : 2 * 2 ^ half ≤ 2 ^ (2 * half) := by
    rw [← pow_succ']
    exact Nat.pow_le_pow_right (by decide) (by omega)
  rw [Bool.eq_iff_iff, BitVec.slt_iff_toInt_lt, BitVec.toInt_eq_toNat_of_lt (by omega),
    BitVec.toInt_eq_toNat_of_lt (by omega)]
  simp

theorem NormalizedDivisor.value_pos {den : Digits half} {hiSig : Nat}
    (divisor : NormalizedDivisor den hiSig) : 0 < digitsValue den (hiSig + 1) := by
  have basePositive := Nat.two_pow_pos half
  have top : 0 < (den hiSig).toNat := by
    have := divisor.normalized
    omega
  exact Nat.lt_of_lt_of_le (Nat.mul_pos top (Nat.pow_pos basePositive)) (Nat.le_add_left _ _)

theorem divideDigit_spec {num den : Digits half} {hiSig i : Nat}
    (divisor : NormalizedDivisor den hiSig) (digits : ∀ j < hiSig + 2, IsDigit (num (i + j)))
    (below : windowValue num i (hiSig + 2) < digitsValue den (hiSig + 1) * 2 ^ half) :
    (divideDigit den hiSig i num).2.toNat =
        windowValue num i (hiSig + 2) / digitsValue den (hiSig + 1) ∧
      windowValue (divideDigit den hiSig i num).1 i (hiSig + 1) =
        windowValue num i (hiSig + 2) % digitsValue den (hiSig + 1) ∧
      (∀ j < hiSig + 1, IsDigit ((divideDigit den hiSig i num).1 (i + j))) ∧
      ∀ j < i, (divideDigit den hiSig i num).1 j = num j := by
  have denPositive := divisor.value_pos
  have denBelow : digitsValue den (hiSig + 1) < (2 ^ half) ^ (hiSig + 1) :=
    numeral_lt fun j _ => divisor.digits j
  obtain ⟨quoHalf, notLow, high⟩ := estimate_spec divisor digits below
  have topDigit : IsDigit (num (i + hiSig + 1)) := digits (hiSig + 1) (by omega)
  obtain ⟨subDigits, carryHalf, subtracted⟩ := subtract_window divisor.positive i (hiSig + 1)
    quoHalf divisor.digits fun j inside => digits j (by omega)
  have frame (j : Nat) (outside : j < i ∨ i + (hiSig + 1) ≤ j) :=
    carryPass_frame (subtractStep (estimate num den (i + hiSig + 1) hiSig) den) i num 0#_
      (hiSig + 1) outside
  have subBelow := windowValue_lt subDigits
  have unfolded : divideDigit den hiSig i num =
      let quoEst := estimate num den (i + hiSig + 1) hiSig
      let sub := carryPass (subtractStep quoEst den) i num 0#_ (hiSig + 1)
      if (sub.1 (i + hiSig + 1)).slt sub.2 then
        let add := carryPass (addBackStep den) i sub.1 0#_ (hiSig + 1)
        (Function.update add.1 (i + hiSig + 1) (add.1 (i + hiSig + 1) + add.2), quoEst - 1#_)
      else (sub.1, quoEst) := rfl
  rw [unfolded]
  dsimp only
  generalize estimate num den (i + hiSig + 1) hiSig = quoEst at *
  generalize carryPass (subtractStep quoEst den) i num 0#_ (hiSig + 1) = sub at *
  obtain ⟨exact_, borrowed⟩ := subtract_estimate subBelow denBelow
    (windowValue_last num i (hiSig + 1)) subtracted notLow high
  have top : sub.1 (i + hiSig + 1) = num (i + hiSig + 1) := frame _ (Or.inr (by omega))
  rw [top, slt_of_digits divisor.positive topDigit carryHalf]
  by_cases borrows : (num (i + hiSig + 1)).toNat < sub.2.toNat
  · have total := borrowed borrows
    obtain ⟨addDigits, added⟩ := addBack_window divisor.positive i (hiSig + 1) divisor.digits
      subDigits
    have addBelow := windowValue_lt addDigits
    have addFrame (j : Nat) (outside : j < i) :=
      carryPass_frame (addBackStep den) i sub.1 0#_ (hiSig + 1) (Or.inl outside)
    generalize carryPass (addBackStep den) i sub.1 0#_ (hiSig + 1) = add at *
    obtain ⟨quoPositive, restored, rest⟩ :=
      restore_estimate subBelow addBelow denBelow total high added
    obtain ⟨quotient, remainder⟩ := div_mod_of_split restored rest
    have inside (j : Nat) (below : j < hiSig + 1) :
        Function.update add.1 (i + hiSig + 1) (add.1 (i + hiSig + 1) + add.2) (i + j) =
          add.1 (i + j) := Function.update_of_ne (by omega) _ _
    have one : (1#(2 * half)).toNat = 1 := by
      have positive := divisor.positive
      rw [BitVec.toNat_ofNat, Nat.mod_eq_of_lt (Nat.one_lt_two_pow (by omega))]
    simp only [borrows, decide_true, if_true]
    refine ⟨?_, ?_, ?_, ?_⟩
    · rw [BitVec.toNat_sub_of_le (by rw [BitVec.le_def, one]; exact quoPositive), one]
      exact quotient.symm
    · rw [windowValue_congr inside]
      exact remainder.symm
    · intro j below
      rw [inside j below]
      exact addDigits j below
    · intro j below
      rw [Function.update_of_ne (by omega), addFrame j below, frame j (Or.inl below)]
  · have total : windowValue num i (hiSig + 2) =
        quoEst.toNat * digitsValue den (hiSig + 1) + windowValue sub.1 i (hiSig + 1) :=
      exact_ (Nat.le_of_not_lt borrows)
    have rest : windowValue sub.1 i (hiSig + 1) < digitsValue den (hiSig + 1) := by
      have next := Nat.add_one_mul quoEst.toNat (digitsValue den (hiSig + 1))
      omega
    obtain ⟨quotient, remainder⟩ := div_mod_of_split total rest
    simp only [borrows, decide_false, Bool.false_eq_true, if_false]
    exact ⟨quotient.symm, remainder.symm, subDigits, fun j inside => frame j (Or.inl inside)⟩

theorem divideLoop_spec {den : Digits half} {hiSig : Nat} (divisor : NormalizedDivisor den hiSig)
    (count : Nat) {num quo : Digits half}
    (digits : ∀ j < count + (hiSig + 1), IsDigit (num j)) (quoDigits : ∀ j, IsDigit (quo j))
    (below : windowValue num count (hiSig + 1) < digitsValue den (hiSig + 1)) :
    (∀ j, IsDigit (divideLoop den hiSig count num quo j)) ∧
      digitsValue (divideLoop den hiSig count num quo) count =
        digitsValue num (count + (hiSig + 1)) / digitsValue den (hiSig + 1) ∧
      ∀ j, count ≤ j → divideLoop den hiSig count num quo j = quo j := by
  induction count generalizing num quo with
  | zero =>
    refine ⟨quoDigits, ?_, fun j _ => rfl⟩
    rw [windowValue_zero] at below
    rw [Nat.zero_add, Nat.div_eq_of_lt below]
    rfl
  | succ i ih =>
    have denPositive := divisor.value_pos
    have windowDigits (j : Nat) (inside : j < hiSig + 2) : IsDigit (num (i + j)) :=
      digits (i + j) (by omega)
    have lowest := windowDigits 0 (by omega)
    unfold IsDigit at lowest
    have window : windowValue num i (hiSig + 2) < digitsValue den (hiSig + 1) * 2 ^ half := by
      have scaled := Nat.mul_le_mul_left (2 ^ half) (Nat.succ_le_of_lt below)
      rw [windowValue_succ, Nat.mul_comm (digitsValue den (hiSig + 1))]
      rw [Nat.mul_succ] at scaled
      rw [Nat.add_zero] at lowest
      omega
    obtain ⟨quotient, rest, restDigits, frame⟩ := divideDigit_spec divisor windowDigits window
    have quoHalf : IsDigit (divideDigit den hiSig i num).2 := by
      rw [IsDigit, quotient]
      exact Nat.div_lt_of_lt_mul window
    have newDigits (j : Nat) (inside : j < i + (hiSig + 1)) :
        IsDigit ((divideDigit den hiSig i num).1 j) := by
      rcases Nat.lt_or_ge j i with low | high
      · rw [frame j low]
        exact digits j (by omega)
      · obtain ⟨offset, rfl⟩ := Nat.exists_eq_add_of_le high
        exact restDigits offset (by omega)
    have newQuo (j : Nat) :
        IsDigit (Function.update quo i (divideDigit den hiSig i num).2 j) := by
      rcases eq_or_ne j i with rfl | other
      · rw [Function.update_self]
        exact quoHalf
      · rw [Function.update_of_ne other]
        exact quoDigits j
    have newBelow : windowValue (divideDigit den hiSig i num).1 i (hiSig + 1) <
        digitsValue den (hiSig + 1) := by
      rw [rest]
      exact Nat.mod_lt _ denPositive
    obtain ⟨resultDigits, value, kept⟩ := ih newDigits newQuo newBelow
    refine ⟨resultDigits, ?_, ?_⟩
    · have last : divideLoop den hiSig (i + 1) num quo i = (divideDigit den hiSig i num).2 :=
        (kept i (Nat.le_refl i)).trans (Function.update_self _ _ _)
      have dividend : digitsValue num (i + 1 + (hiSig + 1)) =
          digitsValue num i + (2 ^ half) ^ i * windowValue num i (hiSig + 2) := by
        rw [← digitsValue_window]
        congr 1
        omega
      have remaining : digitsValue (divideDigit den hiSig i num).1 (i + (hiSig + 1)) =
          digitsValue num i + (2 ^ half) ^ i *
            (windowValue num i (hiSig + 2) % digitsValue den (hiSig + 1)) := by
        rw [digitsValue_window, rest, digitsValue_congr frame]
      have split : digitsValue num (i + 1 + (hiSig + 1)) =
          digitsValue (divideDigit den hiSig i num).1 (i + (hiSig + 1)) +
            digitsValue den (hiSig + 1) *
              ((2 ^ half) ^ i * (divideDigit den hiSig i num).2.toNat) := by
        rw [dividend, remaining, quotient]
        have division := Nat.div_add_mod (windowValue num i (hiSig + 2))
          (digitsValue den (hiSig + 1))
        linear_combination (2 ^ half) ^ i * division.symm
      rw [split, Nat.add_mul_div_left _ _ denPositive, ← value, ← congrArg BitVec.toNat last,
        Nat.mul_comm ((2 ^ half) ^ i)]
      rfl
    · intro j above
      rw [divideLoop]
      exact (kept j (by omega)).trans (Function.update_of_ne (by omega) _ _)

theorem denHiSig_spec (den : Digits half) (i : Nat) :
    denHiSig den i ≤ i ∧ (∀ j, denHiSig den i < j → j ≤ i → den j = 0#_) ∧
      (0 < denHiSig den i → den (denHiSig den i) ≠ 0#_) := by
  induction i with
  | zero => exact ⟨Nat.le_refl _, fun j above atMost => absurd above (by omega),
      fun positive => absurd positive (Nat.lt_irrefl 0)⟩
  | succ i ih =>
    obtain ⟨below, zeros, nonzero⟩ := ih
    rw [denHiSig]
    split
    · rename_i found
      exact ⟨Nat.le_refl _, fun j above atMost => absurd above (by omega), fun _ => found⟩
    · rename_i clear_
      refine ⟨Nat.le_succ_of_le below, fun j above atMost => ?_, nonzero⟩
      rcases Nat.lt_or_ge i j with last | inside
      · obtain rfl : j = i + 1 := by omega
        exact not_not.mp clear_
      · exact zeros j above inside

theorem digitsValue_of_clear {words : Digits half} {low high : Nat} (atMost : low ≤ high)
    (zeros : ∀ j, low ≤ j → j < high → words j = 0#_) :
    digitsValue words high = digitsValue words low := by
  obtain ⟨count, rfl⟩ := Nat.exists_eq_add_of_le atMost
  have clear_ : windowValue words low count = 0 := by
    have same : windowValue words low count = windowValue (fun _ => 0#(2 * half)) low count :=
      windowValue_congr fun i below => zeros (low + i) (Nat.le_add_right _ _) (by omega)
    rw [same]
    simp [windowValue, digitsValue, numeral_const_zero]
  rw [digitsValue_window, clear_, Nat.mul_zero, Nat.add_zero]

theorem divideLoop_scaled {num den : Digits half} {hiSig scale dividend quotientBy : Nat}
    (divisor : NormalizedDivisor den hiSig) (atMost : hiSig ≤ 3)
    (digits : ∀ j < 5, IsDigit (num j)) (scalePositive : 0 < scale)
    (numValue : digitsValue num 5 = scale * dividend)
    (denValue : digitsValue den (hiSig + 1) = scale * quotientBy)
    (dividendBelow : dividend < (2 ^ half) ^ 4) (divisorLarge : (2 ^ half) ^ hiSig ≤ quotientBy) :
    (∀ j, IsDigit (divideLoop den hiSig (4 - hiSig) num (fun _ => 0#_) j)) ∧
      digitsValue (divideLoop den hiSig (4 - hiSig) num fun _ => 0#_) 4 =
        dividend / quotientBy := by
  have basePositive := Nat.two_pow_pos half
  have count : 4 - hiSig + (hiSig + 1) = 5 := by omega
  have below : windowValue num (4 - hiSig) (hiSig + 1) < digitsValue den (hiSig + 1) := by
    have split := digitsValue_window num (4 - hiSig) (hiSig + 1)
    rw [count, numValue] at split
    have weight : (2 ^ half) ^ (4 - hiSig) * (2 ^ half) ^ hiSig = (2 ^ half) ^ 4 := by
      rw [← pow_add]
      congr 1
      omega
    have scaled : (2 ^ half) ^ (4 - hiSig) * windowValue num (4 - hiSig) (hiSig + 1) <
        (2 ^ half) ^ (4 - hiSig) * digitsValue den (hiSig + 1) := by
      calc (2 ^ half) ^ (4 - hiSig) * windowValue num (4 - hiSig) (hiSig + 1)
          ≤ scale * dividend := by omega
        _ < scale * (2 ^ half) ^ 4 := Nat.mul_lt_mul_of_pos_left dividendBelow scalePositive
        _ = (2 ^ half) ^ (4 - hiSig) * (scale * (2 ^ half) ^ hiSig) := by
            rw [← weight]
            ring
        _ ≤ (2 ^ half) ^ (4 - hiSig) * digitsValue den (hiSig + 1) := by
            rw [denValue]
            exact Nat.mul_le_mul_left _ (Nat.mul_le_mul_left _ divisorLarge)
    exact Nat.lt_of_mul_lt_mul_left scaled
  have clearQuo (j : Nat) : IsDigit ((fun _ => 0#(2 * half) : Digits half) j) := by simp [IsDigit]
  obtain ⟨resultDigits, value, kept⟩ := divideLoop_spec divisor (4 - hiSig)
    (fun j inside => digits j (by omega)) clearQuo below
  refine ⟨resultDigits, ?_⟩
  rw [digitsValue_of_clear (show 4 - hiSig ≤ 4 by omega) fun j above _ => kept j above, value,
    count, numValue, denValue, Nat.mul_div_mul_left _ _ scalePositive]

theorem foldl_hiSig {den : Digits half} {hiSig : Nat} (atMost : hiSig ≤ 3)
    (nonzero : den hiSig ≠ 0#_) (zeros : ∀ j, hiSig < j → j < 4 → den j = 0#_) (start : Nat) :
    (List.range 4).foldl (fun hiSig i => if den i ≠ 0#_ then i else hiSig) start = hiSig := by
  have range : List.range 4 = [0, 1, 2, 3] := rfl
  rw [range]
  simp only [List.foldl_cons, List.foldl_nil]
  interval_cases hiSig
  · simp [nonzero, zeros 1 (by decide) (by decide), zeros 2 (by decide) (by decide),
      zeros 3 (by decide) (by decide)]
  · simp [nonzero, zeros 2 (by decide) (by decide), zeros 3 (by decide) (by decide)]
  · simp [nonzero, zeros 3 (by decide) (by decide)]
  · simp [nonzero]

theorem digits_zero_of_lt {words : Digits half} {low high : Nat}
    (below : digitsValue words high < (2 ^ half) ^ low) {j : Nat} (above : low ≤ j)
    (inside : j < high) : words j = 0#_ := by
  by_contra nonzero
  have positive : 1 ≤ (words j).toNat :=
    Nat.pos_of_ne_zero fun zero => nonzero (BitVec.eq_of_toNat_eq (by simpa using zero))
  have impossible : (2 ^ half) ^ low < (2 ^ half) ^ low := by
    calc (2 ^ half) ^ low ≤ (2 ^ half) ^ j := Nat.pow_le_pow_right (Nat.two_pow_pos half) above
      _ = 1 * (2 ^ half) ^ j := (Nat.one_mul _).symm
      _ ≤ (words j).toNat * (2 ^ half) ^ j := Nat.mul_le_mul_right _ positive
      _ ≤ digitsValue words high :=
          digit_le_numeral (2 ^ half) (fun j => (words j).toNat) inside
      _ < (2 ^ half) ^ low := below
  exact Nat.lt_irrefl _ impossible

theorem toNat_ne_zero {w : Nat} {x : BitVec w} (nonzero : x ≠ 0#w) : 0 < x.toNat :=
  Nat.pos_of_ne_zero fun zero => nonzero (BitVec.eq_of_toNat_eq (by simpa using zero))

theorem scaled_divisor (positive : 0 < half) {den : Digits half} {hiSig : Nat}
    (digits : ∀ j, IsDigit (den j)) (long : 0 < hiSig) (atMost : hiSig ≤ 3)
    (zeros : ∀ j, hiSig < j → j < 4 → den j = 0#_) (nonzero : den hiSig ≠ 0#_)
    {scale : BitVec (2 * half)} (scaleEq : scale.toNat = 2 ^ half / ((den hiSig).toNat + 1)) :
    let scaled := (carryPass (scaleStep scale) 0 den 0#_ 4).1
    NormalizedDivisor scaled hiSig ∧
      digitsValue scaled (hiSig + 1) = scale.toNat * digitsValue den 4 ∧
      scaled hiSig ≠ 0#_ ∧ ∀ j, hiSig < j → j < 4 → scaled j = 0#_ := by
  have basePositive := Nat.two_pow_pos half
  have topPositive := toNat_ne_zero nonzero
  have even : 2 ∣ 2 ^ half := dvd_pow_self 2 (by omega)
  obtain ⟨scalePositive, scaleFits, normalizes⟩ :=
    scale_normalizes topPositive even (digits hiSig)
  rw [← scaleEq] at scalePositive scaleFits normalizes
  have scaleHalf : IsDigit scale := by
    rw [IsDigit, scaleEq]
    exact Nat.div_lt_self basePositive (by omega)
  obtain ⟨scaledDigits, _, total⟩ := scale_window positive 4 scaleHalf digits
  have frame (j : Nat) (outside : 0 + 4 ≤ j) :=
    carryPass_frame (scaleStep scale) 0 den 0#_ 4 (Or.inr outside)
  generalize carryPass (scaleStep scale) 0 den 0#_ 4 = scaled at *
  have denValue : digitsValue den 4 = digitsValue den (hiSig + 1) :=
    digitsValue_of_clear (by omega) fun j above below => zeros j (by omega) below
  have denLow : digitsValue den hiSig < (2 ^ half) ^ hiSig := numeral_lt fun j _ => digits j
  have denSplit : digitsValue den 4 = digitsValue den hiSig +
      (den hiSig).toNat * (2 ^ half) ^ hiSig := denValue
  have scaledBelow : scale.toNat * digitsValue den 4 < (2 ^ half) ^ (hiSig + 1) := by
    calc scale.toNat * digitsValue den 4
        < scale.toNat * (((den hiSig).toNat + 1) * (2 ^ half) ^ hiSig) := by
          exact Nat.mul_lt_mul_of_pos_left (leading_bounds denSplit denLow).2 scalePositive
      _ = scale.toNat * ((den hiSig).toNat + 1) * (2 ^ half) ^ hiSig := (Nat.mul_assoc _ _ _).symm
      _ ≤ 2 ^ half * (2 ^ half) ^ hiSig := Nat.mul_le_mul_right _ scaleFits
      _ = (2 ^ half) ^ (hiSig + 1) := (pow_succ' _ _).symm
  have scaledZeros (j : Nat) (above : hiSig < j) (inside : j < 4) : scaled.1 j = 0#_ :=
    digits_zero_of_lt (Nat.lt_of_le_of_lt (Nat.le_add_right _ _) (total ▸ scaledBelow)) above inside
  have scaledValue : digitsValue scaled.1 4 = digitsValue scaled.1 (hiSig + 1) :=
    digitsValue_of_clear (by omega) fun j above below => scaledZeros j (by omega) below
  have noCarry : scaled.2.toNat = 0 := by
    by_contra some
    have weight := Nat.le_mul_of_pos_right ((2 ^ half) ^ 4) (Nat.pos_of_ne_zero some)
    have power : (2 ^ half) ^ (hiSig + 1) ≤ (2 ^ half) ^ 4 :=
      Nat.pow_le_pow_right basePositive (by omega)
    omega
  rw [noCarry, Nat.mul_zero, Nat.add_zero, scaledValue] at total
  have scaledLow : digitsValue scaled.1 hiSig < (2 ^ half) ^ hiSig :=
    numeral_lt fun j below => scaledDigits j (by omega)
  have topLower : scale.toNat * (den hiSig).toNat ≤ (scaled.1 hiSig).toNat := by
    have lower := Nat.mul_le_mul_left scale.toNat (leading_bounds denSplit denLow).1
    have upper := (leading_bounds (show scale.toNat * digitsValue den 4 =
      digitsValue scaled.1 hiSig + (scaled.1 hiSig).toNat * (2 ^ half) ^ hiSig from total.symm)
      scaledLow).2
    rw [← Nat.mul_assoc] at lower
    exact Nat.le_of_lt_succ
      (Nat.lt_of_mul_lt_mul_right (Nat.lt_of_le_of_lt lower upper))
  refine ⟨⟨positive, ?_, long, by omega⟩, total, ?_, scaledZeros⟩
  · intro j
    rcases Nat.lt_or_ge j 4 with inside | outside
    · exact scaledDigits j inside
    · rw [frame j (by omega)]
      exact digits j
  · intro zero
    rw [zero, BitVec.toNat_zero] at topLower
    have := Nat.mul_pos scalePositive topPositive
    omega

theorem longDivide_spec (positive : 0 < half) {num den : Digits half}
    (numDigits : ∀ j, IsDigit (num j)) (numClear : num 4 = 0#_) (denDigits : ∀ j, IsDigit (den j))
    (long : 0 < denHiSig den 3) :
    (∀ j, IsDigit (longDivide num den j)) ∧
      digitsValue (longDivide num den) 4 = digitsValue num 4 / digitsValue den 4 := by
  have basePositive := Nat.two_pow_pos half
  have one : (1#(2 * half)).toNat = 1 := by
    rw [BitVec.toNat_ofNat, Nat.mod_eq_of_lt (Nat.one_lt_two_pow (by omega))]
  obtain ⟨atMost, zeros, found⟩ := denHiSig_spec den 3
  have nonzero := found long
  generalize hiSigEq : denHiSig den 3 = hiSig at *
  have clear_ (j : Nat) (above : hiSig < j) (inside : j < 4) : den j = 0#_ :=
    zeros j above (by omega)
  have topDigit := denDigits hiSig
  have topPositive := toNat_ne_zero nonzero
  have wordRoom : 2 ^ half < 2 ^ (2 * half) := Nat.pow_lt_pow_right (by decide) (by omega)
  let scale := base half / (den hiSig + 1#_)
  have scaleEq : scale.toNat = 2 ^ half / ((den hiSig).toNat + 1) := by
    unfold IsDigit at topDigit
    rw [BitVec.toNat_udiv, toNat_base positive, BitVec.toNat_add, one,
      Nat.mod_eq_of_lt (by omega)]
  obtain ⟨scalePositive, _, normalizes⟩ :=
    scale_normalizes topPositive (dvd_pow_self 2 (by omega)) topDigit
  have dividendBelow : digitsValue num 4 < (2 ^ half) ^ 4 := numeral_lt fun j _ => numDigits j
  have denValue : digitsValue den 4 = digitsValue den (hiSig + 1) :=
    digitsValue_of_clear (by omega) fun j above below => clear_ j (by omega) below
  have denLarge : (2 ^ half) ^ hiSig ≤ digitsValue den 4 := by
    rw [denValue]
    exact Nat.le_trans (Nat.le_mul_of_pos_left _ topPositive) (Nat.le_add_left _ _)
  have unfolded : longDivide num den =
      if 1#_ < scale then
        divideLoop (carryPass (scaleStep scale) 0 den 0#_ 4).1
          ((List.range 4).foldl (fun hiSig i =>
            if (carryPass (scaleStep scale) 0 den 0#_ 4).1 i ≠ 0#_ then i else hiSig) hiSig)
          (4 - (List.range 4).foldl (fun hiSig i =>
            if (carryPass (scaleStep scale) 0 den 0#_ 4).1 i ≠ 0#_ then i else hiSig) hiSig)
          (Function.update (carryPass (scaleStep scale) 0 num 0#_ 4).1 4
            (carryPass (scaleStep scale) 0 num 0#_ 4).2) fun _ => 0#_
      else divideLoop den hiSig (4 - hiSig) num fun _ => 0#_ := by
    rw [longDivide, hiSigEq]
  rw [unfolded]
  split
  · have scaleHalf : IsDigit scale := by
      rw [IsDigit, scaleEq]
      exact Nat.div_lt_self basePositive (by omega)
    obtain ⟨divisor, value, top, above⟩ :=
      scaled_divisor positive denDigits long atMost clear_ nonzero scaleEq
    obtain ⟨scaledDigits, carry, total⟩ := scale_window positive 4 scaleHalf numDigits
    rw [foldl_hiSig atMost top above]
    refine divideLoop_scaled divisor atMost ?_ (scaleEq ▸ scalePositive) ?_ value dividendBelow
      denLarge
    · intro j inside
      rcases Nat.lt_or_ge j 4 with low | high
      · rw [Function.update_of_ne (by omega)]
        exact scaledDigits j low
      · rw [show j = 4 by omega, Function.update_self]
        exact carry
    · rw [digitsValue, numeral_succ, Function.update_self, ← total, Nat.mul_comm _ ((2 ^ half) ^ 4)]
      exact congrArg (· + _)
        (digitsValue_congr fun j inside => Function.update_of_ne (Nat.ne_of_lt inside) _ _)
  · rename_i unscaled
    have scaleOne : scale.toNat = 1 := by
      rw [BitVec.lt_def, one] at unscaled
      omega
    rw [← scaleEq, scaleOne, Nat.one_mul] at normalizes
    have numValue : digitsValue num 5 = 1 * digitsValue num 4 := by
      rw [Nat.one_mul]
      exact digitsValue_of_clear (by decide) fun j above below => by
        rw [show j = 4 by omega]
        exact numClear
    exact divideLoop_scaled ⟨positive, denDigits, long, normalizes⟩ atMost
      (fun j _ => numDigits j) Nat.one_pos numValue (by rw [Nat.one_mul, denValue]) dividendBelow
      denLarge

theorem toNat_decode_quotient (positive : 0 < half) {words : Digits half} {num den : Nat}
    (digits : ∀ j, IsDigit (words j)) (value : digitsValue words 4 = num / den) :
    (decode words).toNat = num / den := by
  rw [toNat_decode positive fun j _ => digits j, value]

theorem denHiSig_encode_pos (positive : 0 < half) {den : DoubleInt (2 * half)}
    (large : 2 ^ half ≤ den.toNat) : 0 < denHiSig (encode den) 3 := by
  obtain ⟨_, zeros, _⟩ := denHiSig_spec (encode den) 3
  by_contra short
  have below : digitsValue (encode den) 1 < (2 ^ half) ^ 1 :=
    numeral_lt fun j _ => isDigit_encode positive den j
  rw [← digitsValue_of_clear (show 1 ≤ 4 by decide) fun j above inside =>
    zeros j (by omega) (by omega), digitsValue_encode positive, pow_one] at below
  omega

theorem divideMagnitudes_spec (positive : 0 < half) {num den : DoubleInt (2 * half)}
    (nonzero : den.toNat ≠ 0) : (divideMagnitudes num den).toNat = num.toNat / den.toNat := by
  have zeroWord {x : BitVec (2 * half)} (zero : x = 0#_) : x.toNat = 0 := by simp [zero]
  rw [divideMagnitudes]
  split
  case isTrue single =>
    simp only [DoubleInt.toNat, zeroWord single.1, zeroWord single.2, BitVec.toNat_udiv,
      BitVec.toNat_zero, Nat.mul_zero, Nat.add_zero]
  case isFalse notSingle =>
    split
    case isTrue small =>
      have denHigh := toNat_ne_zero fun zero => notSingle ⟨small, zero⟩
      have dividend : num.toNat < den.toNat := by
        have low := num.low.isLt
        have high := Nat.le_mul_of_pos_right (2 ^ (2 * half)) denHigh
        simp only [DoubleInt.toNat, zeroWord small, Nat.mul_zero, Nat.add_zero]
        omega
      rw [Nat.div_eq_of_lt dividend]
      simp [DoubleInt.toNat]
    case isFalse large =>
      split
      case isTrue short =>
        have denValue : den.toNat = den.low.toNat := by
          simp [DoubleInt.toNat, zeroWord short.1]
        have denHalf : IsDigit den.low := by
          rw [IsDigit, ← toNat_base positive, ← BitVec.lt_def]
          exact short.2
        obtain ⟨digits, below, total⟩ := shortDivide_spec positive (isDigit_encode positive num)
          (by omega) denHalf (Nat.le_refl 4)
        rw [windowValue_zero, windowValue_zero, digitsValue_encode positive, ← denValue] at total
        exact toNat_decode_quotient positive digits (div_mod_of_split total (denValue ▸ below)).1.symm
      case isFalse long =>
        have denLarge : 2 ^ half ≤ den.toNat := by
          by_contra below
          have wordRoom : 2 ^ half < 2 ^ (2 * half) := Nat.pow_lt_pow_right (by decide) (by omega)
          have highZero : den.high.toNat = 0 := by
            by_contra some
            have := Nat.le_mul_of_pos_right (2 ^ (2 * half)) (Nat.pos_of_ne_zero some)
            simp only [DoubleInt.toNat] at below
            omega
          rw [DoubleInt.toNat, highZero, Nat.mul_zero, Nat.add_zero] at below
          refine long ⟨BitVec.eq_of_toNat_eq highZero, ?_⟩
          rw [BitVec.lt_def, toNat_base positive]
          omega
        obtain ⟨digits, value⟩ := longDivide_spec positive (isDigit_encode positive num) rfl
          (isDigit_encode positive den) (denHiSig_encode_pos positive denLarge)
        rw [digitsValue_encode positive, digitsValue_encode positive] at value
        exact toNat_decode_quotient positive digits value

end GccCil.Gcc.FoldConst
