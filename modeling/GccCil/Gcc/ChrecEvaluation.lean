import Mathlib.Data.Nat.Choose.Basic
import GccCil.Gcc.Chrec
import GccCil.Gcc.DivisionRounding
import GccCil.Gcc.MergeRanges

/-!
# The value of a chain of recurrences

`chrec_evaluate` of `tree-chrec.c` adds up the coefficients of a chain times
binomial coefficients.  `tree_fold_binomial` divides a product of two words by a
factorial, and looks for an overflow of the product only.
-/

namespace GccCil.Gcc.Scev

open GccCil.Lib RangeTest FoldConst DoubleInt

variable {half : Nat}

def decrement {w : Nat} (x : DoubleInt w) : DoubleInt w :=
  if x.low = 0#w then { low := BitVec.allOnes w, high := x.high - 1#w }
  else { x with low := x.low - 1#w }

/-- The rounds of the loop from `i` on: the numerator and the denominator. -/
def binomialLoop (i : Nat) (num idx denom : DoubleInt (2 * half)) :
    Nat → Option (DoubleInt (2 * half) × DoubleInt (2 * half))
  | 0 => some (num, denom)
  | count + 1 =>
    let idx := decrement idx
    let product := mulDouble num idx
    if product.2 then none
    else
      binomialLoop (i + 1) product.1 idx
        (mulDouble denom { low := BitVec.ofNat _ i, high := 0#_ }).1 count

/-- The numerator and the denominator for two factors or more. -/
def binomialParts (n : DoubleInt (2 * half)) (k : Nat) :
    Option (DoubleInt (2 * half) × DoubleInt (2 * half)) :=
  if n.high = 0#_ ∧ n.low.toNat < k then none
  else
    let idx := decrement n
    let product := mulDouble n idx
    if product.2 then none
    else binomialLoop 3 product.1 idx { low := 2#_, high := 0#_ } (k - 2)

def treeFoldBinomial (half : Nat) (type : CstType) (n : Cst) (k : Nat) : Option Cst :=
  if k = 0 then some { type := type, value := 1 }
  else if k = 1 then some (foldConvert type n)
  else do
    let (num, denom) ← binomialParts (ofInt (2 * half) n.value) k
    let quotient := (divAndRoundDouble .exactDiv true num denom).quo
    let res : Cst := { type := type, value := quotient.value type.unsigned }
    if intFitsTypeP res type then some res else none

theorem toNat_of_nonneg {w : Nat} {x : DoubleInt w} (nonneg : 0 ≤ x.toInt) :
    (x.toNat : Int) = x.toInt := by
  have notNegative : x.high.msb = false := by
    rw [← Bool.not_eq_true, msb_iff]
    omega
  rw [toInt_eq, notNegative, if_neg Bool.false_ne_true]

theorem toInt_ofInt {w : Nat} {i : Int} (positive : 0 < w) (fits : InRange false (2 * w) i) :
    (ofInt w i).toInt = i :=
  value_ofInt_of_inRange positive fits

theorem decrement_eq {w : Nat} (positive : 0 < w) {x : DoubleInt w} (nonzero : x.toNat ≠ 0) :
    decrement x = ofInt w (x.toInt - 1) := by
  have one : (1#w).toNat = 1 := toNat_one positive
  have stored : (decrement x).toNat + 1 = x.toNat := by
    rw [decrement]
    split
    · next zero =>
        have someHigh : 1 ≤ x.high.toNat := by
          by_contra none
          have : x.toNat = 0 := by simp_all [DoubleInt.toNat]
          omega
        rw [DoubleInt.toNat, DoubleInt.toNat, zero, BitVec.toNat_sub_of_le (by
          rwa [BitVec.le_def, one]), one, BitVec.toNat_allOnes, BitVec.toNat_zero,
          Nat.mul_sub_one]
        have := Nat.le_mul_of_pos_right (2 ^ w) someHigh
        have := Nat.two_pow_pos w
        omega
    · next nonzero =>
        have someLow : 1 ≤ x.low.toNat := by
          by_contra none
          exact nonzero (BitVec.eq_of_toNat_eq (by rw [BitVec.toNat_zero]; omega))
        simp only [DoubleInt.toNat]
        rw [BitVec.toNat_sub_of_le (by rwa [BitVec.le_def, one]), one]
        omega
  have congruent : (x.toNat : Int) ≡ x.toInt [ZMOD (2 ^ (2 * w) : Nat)] :=
    eq_ofInt_iff.mp (ofInt_toInt x).symm
  rw [eq_ofInt_iff, show ((decrement x).toNat : Int) = x.toNat - 1 by omega]
  exact congruent.sub_right 1

theorem decrement_toInt {w : Nat} (positive : 0 < w) {x : DoubleInt w} (nonzero : x.toInt ≠ 0)
    (inside : InRange false (2 * w) (x.toInt - 1)) : (decrement x).toInt = x.toInt - 1 := by
  have stored : x.toNat ≠ 0 := by
    intro zero
    have same : x = ofInt w 0 := eq_ofInt_iff.mpr (by rw [zero]; rfl)
    rw [same, ofInt_zero] at nonzero
    exact nonzero (by simp [DoubleInt.toInt])
  rw [decrement_eq positive stored]
  exact toInt_ofInt positive inside

theorem decrement_toInt_of_pos {w : Nat} (positive : 0 < w) {x : DoubleInt w}
    (above : 0 < x.toInt) : (decrement x).toInt = x.toInt - 1 := by
  have fits := value_inRange positive false x
  rw [value_signed, inRange_signed] at fits
  refine decrement_toInt positive (by omega) ?_
  rw [inRange_signed]
  omega

theorem mulDouble_toInt (positive : 0 < half) {x y : DoubleInt (2 * half)}
    (kept : (mulDouble x y).2 = false) : (mulDouble x y).1.toInt = x.toInt * y.toInt := by
  obtain ⟨product, overflow⟩ := mulDouble_spec positive x y
  rw [product]
  refine toInt_ofInt (by omega) ?_
  by_contra outside
  rw [overflow.mpr outside] at kept
  cases kept

theorem small_toInt {w n : Nat} (small : n < 2 ^ w) :
    ({ low := BitVec.ofNat w n, high := 0#w } : DoubleInt w).toInt = n := by
  rw [DoubleInt.toInt, BitVec.toNat_ofNat, Nat.mod_eq_of_lt small, BitVec.toInt_zero, mul_zero,
    add_zero]

theorem factorial_le_descFactorial {n k : Nat} (atMost : k ≤ n) : k.factorial ≤ n.descFactorial k := by
  rw [Nat.descFactorial_eq_factorial_mul_choose]
  exact Nat.le_mul_of_pos_right _ (Nat.choose_pos atMost)

/-- What the loop has after `j` factors. -/
structure Factors (n j : Nat) (num denom : DoubleInt (2 * half)) : Prop where
  numerator : num.toInt = n.descFactorial j
  denominator : denom.toInt = j.factorial

theorem Factors.succ (positive : 0 < half) {n j : Nat} {num idx denom : DoubleInt (2 * half)}
    (factors : Factors n j num denom) (index : idx.toInt = (n - j : Nat)) (more : j < n)
    (small : n < 2 ^ (2 * half)) (kept : (mulDouble num idx).2 = false) :
    Factors n (j + 1) (mulDouble num idx).1
      (mulDouble denom { low := BitVec.ofNat _ (j + 1), high := 0#_ }).1 where
  numerator := by
    rw [mulDouble_toInt positive kept, factors.numerator, index, Nat.descFactorial_succ]
    push_cast
    ring
  denominator := by
    have product := mulDouble_toInt positive kept
    have fits := (inRange_signed _ _).mp
      (value_inRange (show 0 < 2 * half by omega) false (mulDouble num idx).1)
    rw [value_signed, product, factors.numerator, index, ← Nat.cast_mul, mul_comm (n.descFactorial j),
      ← Nat.descFactorial_succ] at fits
    have bound := factorial_le_descFactorial (show j + 1 ≤ n from more)
    rw [(mulDouble_spec positive _ _).1, factors.denominator, small_toInt (by omega),
      ← Nat.cast_mul, mul_comm j.factorial, ← Nat.factorial_succ]
    refine toInt_ofInt (by omega) ?_
    rw [inRange_signed]
    omega

theorem binomialLoop_spec (positive : 0 < half) {n j count : Nat}
    {num idx denom num' denom' : DoubleInt (2 * half)} (factors : Factors n j num denom)
    (index : idx.toInt = (n - j : Nat) + 1) (more : j + count ≤ n) (small : n < 2 ^ (2 * half))
    (found : binomialLoop (j + 1) num idx denom count = some (num', denom')) :
    Factors n (j + count) num' denom' := by
  induction count generalizing j num idx denom with
  | zero =>
    cases found
    exact factors
  | succ count ih =>
    rw [binomialLoop] at found
    split_ifs at found with overflow
    have next : (decrement idx).toInt = (n - j : Nat) := by
      rw [decrement_toInt_of_pos (by omega) (by omega), index, add_sub_cancel_right]
    have step := factors.succ positive next (by omega) small (Bool.eq_false_iff.mpr overflow)
    have result := ih step (by omega) (by omega) found
    rwa [Nat.add_right_comm, Nat.add_assoc] at result

/-- Only numbers of one word and at least `k` get through, and then nothing has
overflowed, the factorial included. -/
theorem binomialParts_spec (positive : 0 < half) {n num denom : DoubleInt (2 * half)} {k : Nat}
    (nonneg : 0 ≤ n.toInt) (two : 2 ≤ k) (found : binomialParts n k = some (num, denom)) :
    k ≤ n.toInt.toNat ∧ Factors n.toInt.toNat k num denom := by
  have value := toNat_of_nonneg nonneg
  have word := Nat.two_pow_pos (2 * half)
  have modulus : 2 ^ (2 * (2 * half)) = 2 ^ (2 * half) * 2 ^ (2 * half) := pow_two_mul _
  have four : 4 ≤ 2 ^ (2 * half) := Nat.pow_le_pow_right (by decide : 0 < 2) (show 2 ≤ 2 * half by omega)
  simp only [binomialParts] at found
  split_ifs at found with few overflow
  have kept := Bool.eq_false_iff.mpr overflow
  have above : 0 < n.toInt := by
    by_contra notAbove
    refine few ?_
    have zero : n = ofInt (2 * half) 0 := by
      rw [← ofInt_toInt n, show n.toInt = 0 by omega]
    rw [zero, ofInt_zero]
    exact ⟨rfl, by simpa using Nat.lt_of_lt_of_le Nat.zero_lt_two two⟩
  have index := decrement_toInt_of_pos (show 0 < 2 * half by omega) above
  have product := mulDouble_toInt positive kept
  have fits := (inRange_signed _ _).mp
    (value_inRange (show 0 < 2 * half by omega) false (mulDouble n (decrement n)).1)
  rw [value_signed, product, index, modulus] at fits
  have oneWord : n.high = 0#_ := by
    by_contra nonzero
    have someHigh : 1 ≤ n.high.toNat := by
      by_contra none
      exact nonzero (BitVec.eq_of_toNat_eq (by rw [BitVec.toNat_zero]; omega))
    have large : ((2 ^ (2 * half) : Nat) : Int) ≤ n.toInt := by
      rw [← value, DoubleInt.toNat]
      have := Nat.le_mul_of_pos_right (2 ^ (2 * half)) someHigh
      omega
    push_cast at fits large
    nlinarith
  have small : n.toInt.toNat < 2 ^ (2 * half) := by
    have lowSmall := n.low.isLt
    rw [DoubleInt.toNat, oneWord, BitVec.toNat_zero] at value
    omega
  have enough : k ≤ n.toInt.toNat := by
    by_contra less
    refine few ⟨oneWord, ?_⟩
    rw [DoubleInt.toNat, oneWord, BitVec.toNat_zero] at value
    omega
  have factors : Factors n.toInt.toNat 2 (mulDouble n (decrement n)).1
      ({ low := 2#_, high := 0#_ } : DoubleInt (2 * half)) := by
    refine ⟨?_, small_toInt (by omega)⟩
    rw [product, index, Nat.descFactorial_succ, Nat.descFactorial_one]
    push_cast [show 1 ≤ n.toInt.toNat by omega]
    rw [Int.toNat_of_nonneg nonneg]
    ring
  have result := binomialLoop_spec positive factors (by rw [index]; omega)
    (show 2 + (k - 2) ≤ n.toInt.toNat by omega) small found
  rw [show 2 + (k - 2) = k by omega] at result
  exact ⟨enough, result⟩

def TwoWords (half : Nat) (n : Int) : Prop := 0 ≤ n ∧ n < 2 ^ (2 * (2 * half))

theorem two_words_double (positive : 0 < half) :
    2 ^ (2 * (2 * half)) = 2 * 2 ^ (2 * (2 * half) - 1) := by
  rw [← pow_succ']
  congr 1
  omega

theorem TwoWords.toInt {n : Int} (positive : 0 < half) (words : TwoWords half n)
    (below : n < 2 ^ (2 * (2 * half) - 1)) : (ofInt (2 * half) n).toInt = n := by
  refine toInt_ofInt (by omega) ?_
  have nonneg := words.1
  rw [inRange_signed, two_words_double positive]
  push_cast
  omega

section Below

/-- The product of the `k` integers from `-a` down. -/
def productBelow (a k : Nat) : Int := (-1) ^ k * (a.ascFactorial k : Nat)

theorem productBelow_succ (a k : Nat) :
    productBelow a (k + 1) = productBelow a k * -((a + k : Nat) : Int) := by
  rw [productBelow, productBelow, Nat.ascFactorial_succ, pow_succ]
  push_cast
  ring

theorem abs_productBelow (a k : Nat) : |productBelow a k| = a.ascFactorial k := by
  rw [productBelow, abs_mul, abs_pow, abs_neg, abs_one, one_pow, one_mul, Nat.abs_cast]

theorem factorial_le_ascFactorial {a : Nat} (positive : 1 ≤ a) (k : Nat) :
    k.factorial ≤ a.ascFactorial k := by
  induction k with
  | zero => rfl
  | succ k ih =>
    rw [Nat.factorial_succ, Nat.ascFactorial_succ]
    exact Nat.mul_le_mul (by omega) ih

theorem productBelow_grows {w a j : Nat} (more : 2 ≤ a + j)
    (outside : ¬ InRange false w (productBelow a j)) :
    ¬ InRange false w (productBelow a (j + 1)) := by
  have factor : (2 : Int) ≤ ((a + j : Nat) : Int) := by exact_mod_cast more
  rw [inRange_signed] at outside ⊢
  rw [productBelow_succ]
  have modulus := Nat.two_pow_pos w
  rcases lt_or_ge (2 * productBelow a j) (2 ^ w : Nat) with below | above
  · have low : 2 * productBelow a j < -((2 ^ w : Nat) : Int) := by
      by_contra notLow
      exact outside ⟨not_lt.mp notLow, below⟩
    intro ⟨_, less⟩
    nlinarith
  · intro ⟨less, _⟩
    nlinarith

theorem productBelow_grows_of_le {w a j k : Nat} (more : 2 ≤ a + j) (atMost : j ≤ k)
    (outside : ¬ InRange false w (productBelow a j)) :
    ¬ InRange false w (productBelow a k) := by
  induction k, atMost using Nat.le_induction with
  | base => exact outside
  | succ k atMost ih => exact productBelow_grows (by omega) ih

/-- What the loop has after `j` factors of a number that is read as `-a`. -/
structure FactorsBelow (a j : Nat) (num denom : DoubleInt (2 * half)) : Prop where
  numerator : num.toInt = productBelow a j
  denominator : denom.toInt = j.factorial

theorem ascFactorial_bound {w a j : Nat} (inside : InRange false w (productBelow a j)) :
    2 * a.ascFactorial j ≤ 2 ^ w := by
  rw [inRange_signed] at inside
  have bound := abs_le.mpr (show -((2 ^ w : Nat) : Int) ≤ 2 * productBelow a j ∧ _ from
    ⟨inside.1, inside.2.le⟩)
  rw [abs_mul, abs_productBelow, abs_two] at bound
  exact_mod_cast bound

theorem factorial_fits {w a j : Nat} (positive : 1 ≤ a) (two : 2 ≤ j)
    (inside : InRange false w (productBelow a (j + 1))) : 2 * (j + 1).factorial < 2 ^ w := by
  refine lt_of_le_of_ne ((Nat.mul_le_mul_left 2
    (factorial_le_ascFactorial positive (j + 1))).trans (ascFactorial_bound inside)) ?_
  intro power
  have three : 3 ∣ 2 * (j + 1).factorial :=
    (Nat.dvd_factorial (by decide) (by omega)).mul_left 2
  rw [power] at three
  exact absurd (Nat.prime_three.dvd_of_dvd_pow three) (by decide)

theorem FactorsBelow.succ (positive : 0 < half) {a j : Nat}
    {num idx denom : DoubleInt (2 * half)} (factors : FactorsBelow a j num denom)
    (negative : 1 ≤ a) (two : 2 ≤ j) (index : idx.toInt = -((a + (j - 1) : Nat) : Int)) :
    ((mulDouble num (decrement idx)).2 = true ↔
        ¬ InRange false (2 * (2 * half)) (productBelow a (j + 1))) ∧
      ((mulDouble num (decrement idx)).2 = false →
        (decrement idx).toInt = -((a + j : Nat) : Int) ∧
        FactorsBelow a (j + 1) (mulDouble num (decrement idx)).1
          (mulDouble denom { low := BitVec.ofNat _ (j + 1), high := 0#_ }).1) := by
  have wordsPositive : 0 < 2 * half := by omega
  have word : 4 ≤ 2 ^ (2 * half) :=
    Nat.pow_le_pow_right (by decide : 0 < 2) (show 2 ≤ 2 * half by omega)
  have modulus : 2 ^ (2 * (2 * half)) = 2 ^ (2 * half) * 2 ^ (2 * half) := pow_two_mul _
  have isIndex : idx.toInt - 1 = -((a + j : Nat) : Int) := by omega
  -- The last two factors of the numerator keep the index away from the least integer.
  have inside : InRange false (2 * (2 * half)) (idx.toInt - 1) := by
    have numFits := value_inRange wordsPositive false num
    rw [value_signed, factors.numerator] at numFits
    have bound := ascFactorial_bound numFits
    obtain ⟨i, rfl⟩ : ∃ i, j = i + 2 := ⟨j - 2, by omega⟩
    rw [Nat.ascFactorial_succ, Nat.ascFactorial_succ] at bound
    have least : 1 ≤ a.ascFactorial i :=
      (Nat.factorial_pos i).trans_le (factorial_le_ascFactorial negative i)
    have sixteen : 16 ≤ 2 ^ (2 * (2 * half)) := by
      rw [modulus]
      exact Nat.mul_le_mul word word
    have atLeast : 2 * (a + (i + 2)) ≤ 2 ^ (2 * (2 * half)) := by
      rcases Nat.lt_or_ge 1 (a + i) with large | small
      · have product := Nat.mul_le_mul (Nat.le_refl (a + (i + 1))) (Nat.mul_le_mul large least)
        omega
      · omega
    rw [isIndex, inRange_signed]
    have modulusPositive := Nat.two_pow_pos (2 * (2 * half))
    omega
  have next := decrement_toInt wordsPositive (by omega) inside
  rw [isIndex] at next
  obtain ⟨stored, overflow⟩ := mulDouble_spec positive num (decrement idx)
  rw [factors.numerator, next, ← productBelow_succ] at stored overflow
  refine ⟨overflow, fun kept => ⟨next, ?_⟩⟩
  have inRange : InRange false (2 * (2 * half)) (productBelow a (j + 1)) := by
    by_contra outside
    rw [overflow.mpr outside] at kept
    cases kept
  have factorial := factorial_fits negative two inRange
  refine ⟨by rw [stored]; exact toInt_ofInt wordsPositive inRange, ?_⟩
  have small : j + 1 < 2 ^ (2 * half) := by
    by_contra large
    have self := Nat.self_le_factorial j
    rw [Nat.factorial_succ, modulus] at factorial
    have product := Nat.mul_le_mul (not_lt.mp large)
      (show 2 ^ (2 * half) - 1 ≤ j.factorial by omega)
    rw [Nat.mul_sub_one] at product
    have := Nat.mul_le_mul word (Nat.le_refl (2 ^ (2 * half)))
    omega
  rw [(mulDouble_spec positive _ _).1, factors.denominator, small_toInt small,
    ← Nat.cast_mul, mul_comm j.factorial, ← Nat.factorial_succ]
  refine toInt_ofInt wordsPositive ?_
  rw [inRange_signed]
  omega

theorem binomialLoop_below (positive : 0 < half) {a j count : Nat}
    {num idx denom : DoubleInt (2 * half)} (factors : FactorsBelow a j num denom)
    (negative : 1 ≤ a) (two : 2 ≤ j) (index : idx.toInt = -((a + (j - 1) : Nat) : Int)) :
    (binomialLoop (j + 1) num idx denom count = none ∧
        ¬ InRange false (2 * (2 * half)) (productBelow a (j + count))) ∨
      ∃ num' denom', binomialLoop (j + 1) num idx denom count = some (num', denom') ∧
        FactorsBelow a (j + count) num' denom' := by
  induction count generalizing j num idx denom with
  | zero => exact .inr ⟨num, denom, rfl, factors⟩
  | succ count ih =>
    obtain ⟨overflow, kept⟩ := factors.succ positive negative two index
    rw [binomialLoop]
    by_cases overflows : (mulDouble num (decrement idx)).2 = true
    · refine .inl ⟨if_pos overflows, ?_⟩
      exact productBelow_grows_of_le (by omega) (by omega) (overflow.mp overflows)
    · rw [if_neg overflows]
      obtain ⟨next, step⟩ := kept (Bool.eq_false_iff.mpr overflows)
      have result := ih step (by omega)
        (by rw [next, Nat.add_sub_cancel])
      rwa [show j + 1 + count = j + (count + 1) by omega] at result

def readBelow (half : Nat) (n : Int) : Nat := ((2 ^ (2 * (2 * half)) : Nat) - n).toNat

theorem binomialParts_below (positive : 0 < half) {n : Int} {k : Nat}
    (large : 2 ^ (2 * (2 * half) - 1) ≤ n) (fits : n < (2 ^ (2 * (2 * half)) : Nat))
    (two : 2 ≤ k) :
    (binomialParts (ofInt (2 * half) n) k = none ∧
        ¬ InRange false (2 * (2 * half)) (productBelow (readBelow half n) k)) ∨
      ∃ num denom, binomialParts (ofInt (2 * half) n) k = some (num, denom) ∧
        FactorsBelow (readBelow half n) k num denom := by
  have wordsPositive : 0 < 2 * half := by omega
  have word : 4 ≤ 2 ^ (2 * half) :=
    Nat.pow_le_pow_right (by decide : 0 < 2) (show 2 ≤ 2 * half by omega)
  have modulus : 2 ^ (2 * (2 * half)) = 2 ^ (2 * half) * 2 ^ (2 * half) := pow_two_mul _
  have double : 2 ^ (2 * (2 * half)) = 2 * 2 ^ (2 * (2 * half) - 1) := by
    rw [← pow_succ']
    congr 1
    omega
  have half_ : (2 : Int) ^ (2 * (2 * half) - 1) = ((2 ^ (2 * (2 * half) - 1) : Nat) : Int) := by
    push_cast
    rfl
  rw [half_] at large
  obtain ⟨a, isA⟩ : ∃ a, a = readBelow half n := ⟨_, rfl⟩
  have value : (a : Int) = (2 ^ (2 * (2 * half)) : Nat) - n := by
    rw [isA, readBelow, Int.toNat_of_nonneg (by omega)]
  rw [← isA]
  have stored : (ofInt (2 * half) n).toInt = -(a : Int) := by
    have congruent : n ≡ -(a : Int) [ZMOD (2 ^ (2 * (2 * half)) : Nat)] :=
      Int.modEq_iff_dvd.mpr ⟨-1, by omega⟩
    rw [ofInt_eq_ofInt_iff.mpr congruent]
    refine toInt_ofInt wordsPositive ?_
    rw [inRange_signed]
    omega
  generalize ofInt (2 * half) n = x at stored ⊢
  have many : ¬ (x.high = 0#_ ∧ x.low.toNat < k) := by
    rintro ⟨high, _⟩
    have nonneg : 0 ≤ x.toInt := by
      rw [DoubleInt.toInt, high, BitVec.toInt_zero]
      omega
    omega
  rw [binomialParts, if_neg many]
  dsimp only
  have first : productBelow a 2 = -(a : Int) * -((a + 1 : Nat) : Int) := by
    rw [productBelow_succ, productBelow_succ, productBelow, pow_zero, Nat.ascFactorial_zero]
    push_cast
    ring
  obtain ⟨product, overflow⟩ := mulDouble_spec positive x (decrement x)
  have sixteen : 16 ≤ 2 ^ (2 * (2 * half)) := by
    rw [modulus]
    exact Nat.mul_le_mul word word
  by_cases least : 2 * a = 2 ^ (2 * (2 * half))
  · -- The predecessor of the least integer is the greatest one.
    have wrapped : (decrement x).toInt = a - 1 := by
      have nonzero : x.toNat ≠ 0 := by
        intro zero
        have same : x = ofInt (2 * half) 0 := eq_ofInt_iff.mpr (by rw [zero]; rfl)
        rw [same, ofInt_zero] at stored
        simp only [DoubleInt.toInt, BitVec.toNat_zero, BitVec.toInt_zero] at stored
        omega
      have congruent : x.toInt - 1 ≡ (a : Int) - 1 [ZMOD (2 ^ (2 * (2 * half)) : Nat)] :=
        Int.modEq_iff_dvd.mpr ⟨1, by omega⟩
      rw [decrement_eq wordsPositive nonzero, ofInt_eq_ofInt_iff.mpr congruent]
      refine toInt_ofInt wordsPositive ?_
      rw [inRange_signed]
      omega
    have outside : ∀ b : Int, 2 ≤ |b| → ¬ InRange false (2 * (2 * half)) (-(a : Int) * b) := by
      intro b big inside
      have least_ : (2 : Int) * a = (2 ^ (2 * (2 * half)) : Nat) := by exact_mod_cast least
      rw [inRange_signed, ← least_] at inside
      have above : 0 < (a : Int) := by omega
      rcases abs_cases b with ⟨isAbs, _⟩ | ⟨isAbs, _⟩
      · nlinarith
      · nlinarith
    refine .inl ⟨if_pos (overflow.mpr ?_), productBelow_grows_of_le (by omega) two ?_⟩
    · rw [stored, wrapped]
      exact outside _ (by rw [abs_of_nonneg (by omega)]; omega)
    · rw [first]
      exact outside _ (by rw [abs_neg, Nat.abs_cast]; omega)
  · have index : (decrement x).toInt = -((a + 1 : Nat) : Int) := by
      rw [decrement_toInt wordsPositive (by omega) ?_, stored]
      · push_cast
        ring
      · rw [inRange_signed]
        omega
    rw [stored, index, ← first] at product overflow
    by_cases overflows : (mulDouble x (decrement x)).2 = true
    · exact .inl ⟨if_pos overflows, productBelow_grows_of_le (by omega) two
        (overflow.mp overflows)⟩
    · rw [if_neg overflows]
      have inRange : InRange false (2 * (2 * half)) (productBelow a 2) := by
        by_contra outside
        exact overflows (overflow.mpr outside)
      have factors : FactorsBelow a 2 (mulDouble x (decrement x)).1
          ({ low := 2#_, high := 0#_ } : DoubleInt (2 * half)) :=
        ⟨by rw [product]; exact toInt_ofInt wordsPositive inRange, small_toInt (by omega)⟩
      have result := @binomialLoop_below half positive a 2 (k - 2) _ _ _ factors (by omega)
        (by decide) index
      rwa [show 2 + (k - 2) = k by omega] at result

/-- The quotient that is taken for the binomial coefficient when the two words of `n` are
read as negative. -/
def misread (half : Nat) (n : Int) (k : Nat) : Int :=
  productBelow (readBelow half n) k % (2 ^ (2 * (2 * half)) : Nat) / k.factorial

/-- A number with the sign bit of two words gets a result: its product is in two words,
and the quotient fits the type. -/
structure Misreads (half : Nat) (type : CstType) (n : Int) (k : Nat) : Prop where
  large : 2 ^ (2 * (2 * half) - 1) ≤ n
  product : InRange false (2 * (2 * half)) (productBelow (readBelow half n) k)
  fits : type.HasValue (misread half n k)

theorem misread_lt (half : Nat) (n : Int) {k : Nat} (two : 2 ≤ k) :
    2 * misread half n k < (2 ^ (2 * (2 * half)) : Nat) := by
  have factorial : (2 : Int) ≤ (k.factorial : Nat) := by
    exact_mod_cast two.trans (Nat.self_le_factorial k)
  have modulus := Nat.two_pow_pos (2 * (2 * half))
  have product : misread half n k * k.factorial ≤ _ := Int.ediv_mul_le _ (by positivity)
  have nonneg := Int.emod_nonneg (productBelow (readBelow half n) k)
    (show ((2 ^ (2 * (2 * half)) : Nat) : Int) ≠ 0 by omega)
  have less := Int.emod_lt_of_pos (productBelow (readBelow half n) k)
    (show (0 : Int) < (2 ^ (2 * (2 * half)) : Nat) by omega)
  have misreadNonneg : 0 ≤ misread half n k := Int.ediv_nonneg nonneg (by positivity)
  nlinarith

theorem FactorsBelow.misread_spec (positive : 0 < half) {n : Int} {k : Nat}
    {num denom : DoubleInt (2 * half)} (factors : FactorsBelow (readBelow half n) k num denom)
    (two : 2 ≤ k) (uns : Bool) :
    (divAndRoundDouble .exactDiv true num denom).quo.value uns = misread half n k := by
  have wordsPositive : 0 < 2 * half := by omega
  have modulus := Nat.two_pow_pos (2 * (2 * half))
  have numValue : num.value true = productBelow (readBelow half n) k %
      (2 ^ (2 * (2 * half)) : Nat) := by
    rw [← ofInt_value false num, value_ofInt wordsPositive, value_signed, factors.numerator,
      wrap_unsigned]
  have denomValue : denom.value true = k.factorial := by
    rw [← factors.denominator]
    exact toNat_of_nonneg (by rw [factors.denominator]; positivity)
  have division := (divAndRoundDouble_refines positive .exactDiv true num denom
    (by rw [denomValue]; positivity)).1
  have nonneg := Int.emod_nonneg (productBelow (readBelow half n) k)
    (show ((2 ^ (2 * (2 * half)) : Nat) : Int) ≠ 0 by omega)
  have less := Int.emod_lt_of_pos (productBelow (readBelow half n) k)
    (show (0 : Int) < (2 ^ (2 * (2 * half)) : Nat) by omega)
  have quotient : (divAndRoundDouble .exactDiv true num denom).quo =
      ofInt (2 * half) (misread half n k) := by
    rw [division, numValue, denomValue]
    simp only [Vrp.divAndRoundDouble, DivCode.rounding]
    rw [Int.tdiv_eq_ediv_of_nonneg nonneg, misread]
  have misreadNonneg : 0 ≤ misread half n k := Int.ediv_nonneg nonneg (by positivity)
  have misreadSmall := misread_lt half n two
  rw [quotient]
  refine value_ofInt_of_inRange wordsPositive ?_
  cases uns with
  | true => rw [inRange_unsigned]; omega
  | false => rw [inRange_signed]; omega

theorem treeFoldBinomial_below (positive : 0 < half) {type : CstType} {n r : Cst} {k : Nat}
    (words : TwoWords half n.value) (large : 2 ^ (2 * (2 * half) - 1) ≤ n.value) (two : 2 ≤ k) :
    treeFoldBinomial half type n k = some r ↔
      Misreads half type n.value k ∧ r = { type := type, value := misread half n.value k } := by
  have fits : n.value < (2 ^ (2 * (2 * half)) : Nat) := by
    exact_mod_cast words.2
  rw [treeFoldBinomial, if_neg (by omega), if_neg (by omega)]
  rcases binomialParts_below positive large fits two with
    ⟨none, outside⟩ | ⟨num, denom, parts, factors⟩
  · rw [none]
    refine ⟨fun found => (by cases found), fun ⟨misreads, _⟩ => absurd misreads.product outside⟩
  · have inside : InRange false (2 * (2 * half)) (productBelow (readBelow half n.value) k) := by
      rw [← factors.numerator]
      exact value_inRange (by omega) false num
    rw [parts, Option.bind_eq_bind, Option.bind_some]
    dsimp only
    rw [factors.misread_spec positive two]
    have fitsIff : intFitsTypeP { type := type, value := misread half n.value k } type = true ↔
        type.HasValue (misread half n.value k) := by
      simp [intFitsTypeP, CstType.HasValue]
    split_ifs with fit
    · refine ⟨fun found => ⟨⟨large, inside, fitsIff.mp fit⟩, (Option.some.inj found).symm⟩, ?_⟩
      rintro ⟨_, rfl⟩
      rfl
    · exact ⟨fun found => (by cases found), fun ⟨misreads, _⟩ => absurd (fitsIff.mpr misreads.fits) fit⟩

theorem le_choose {n k : Nat} (positive : 0 < k) (less : k < n) : n ≤ n.choose k := by
  induction n generalizing k with
  | zero => omega
  | succ n ih =>
    obtain ⟨k, rfl⟩ : ∃ i, k = i + 1 := ⟨k - 1, by omega⟩
    rw [Nat.choose_succ_succ]
    have some_ := Nat.choose_pos (show k ≤ n by omega)
    rcases Nat.lt_or_ge (k + 1) n with below | last
    · have := ih (Nat.succ_pos k) below
      omega
    · obtain rfl : n = k + 1 := by omega
      rw [Nat.choose_self, Nat.choose_succ_self_right]

theorem Misreads.ne_choose (positive : 0 < half) {type : CstType} {n : Int} {k : Nat}
    (misreads : Misreads half type n k) (words : TwoWords half n) (two : 2 ≤ k) :
    misread half n k ≠ (n.toNat.choose k : Nat) := by
  have negative : 1 ≤ readBelow half n := by
    have := words.2
    rw [readBelow]
    push_cast
    omega
  have double := two_words_double positive
  have four : 4 ≤ 2 ^ (2 * half) :=
    Nat.pow_le_pow_right (by decide : 0 < 2) (show 2 ≤ 2 * half by omega)
  have sixteen : 16 ≤ 2 ^ (2 * (2 * half)) := by
    rw [pow_two_mul]
    exact Nat.mul_le_mul four four
  have large : 2 ^ (2 * (2 * half) - 1) ≤ n.toNat := by
    have := misreads.large
    zify
    omega
  have factorial := (Nat.mul_le_mul_left 2 (factorial_le_ascFactorial negative k)).trans
    (ascFactorial_bound misreads.product)
  have less : k < n.toNat := by
    rcases Nat.lt_or_ge k 3 with few | many
    · omega
    · have := Nat.lt_factorial_self many
      omega
  have coefficient := le_choose (by omega) less
  have small := misread_lt half n two
  omega

end Below

theorem treeFoldBinomial_of_two_le (positive : 0 < half) {type : CstType} {n r : Cst} {k : Nat}
    (words : TwoWords half n.value) (below : n.value < 2 ^ (2 * (2 * half) - 1)) (two : 2 ≤ k)
    (found : treeFoldBinomial half type n k = some r) :
    r.type = type ∧ r.value = (n.value.toNat.choose k : Nat) ∧ type.HasValue r.value := by
  rw [treeFoldBinomial, if_neg (by omega), if_neg (by omega)] at found
  obtain ⟨⟨num, denom⟩, parts, found⟩ := Option.bind_eq_some_iff.mp found
  dsimp only at found
  split_ifs at found with fits
  obtain rfl := Option.some.inj found
  have stored := words.toInt positive below
  obtain ⟨atMost, numerator, denominator⟩ :=
    binomialParts_spec positive (by rw [stored]; exact words.1) two parts
  rw [stored] at atMost numerator
  have coefficient := Nat.descFactorial_eq_factorial_mul_choose n.value.toNat k
  have factorial := Nat.factorial_pos k
  have numValue : num.value true = num.toInt := toNat_of_nonneg (by rw [numerator]; positivity)
  have denomValue : denom.value true = denom.toInt :=
    toNat_of_nonneg (by rw [denominator]; positivity)
  have division := (divAndRoundDouble_refines positive .exactDiv true num denom
    (by rw [denomValue, denominator]; positivity)).1
  have quotient : (divAndRoundDouble .exactDiv true num denom).quo =
      ofInt (2 * half) (n.value.toNat.choose k : Nat) := by
    rw [division, numValue, denomValue, numerator, denominator, coefficient]
    simp only [Vrp.divAndRoundDouble, DivCode.rounding]
    rw [Nat.cast_mul, Int.mul_tdiv_cancel_left _ (by positivity)]
  have bound := (inRange_signed _ _).mp (value_inRange (show 0 < 2 * half by omega) false num)
  have atMostNumerator : n.value.toNat.choose k ≤ n.value.toNat.descFactorial k := by
    rw [coefficient]
    exact Nat.le_mul_of_pos_left _ factorial
  rw [value_signed, numerator] at bound
  refine ⟨rfl, ?_, ?_⟩
  · show DoubleInt.value _ _ = _
    rw [quotient]
    refine value_ofInt_of_inRange (by omega) ?_
    cases type.unsigned with
    | true => rw [inRange_unsigned]; omega
    | false => rw [inRange_signed]; omega
  · simpa [intFitsTypeP, CstType.HasValue] using fits

theorem binomialDenominator_exact (positive : 0 < half) {n : Cst} {k : Nat}
    {num denom : DoubleInt (2 * half)} (words : TwoWords half n.value) (two : 2 ≤ k)
    (parts : binomialParts (ofInt (2 * half) n.value) k = some (num, denom)) :
    denom.toInt = k.factorial := by
  rcases lt_or_ge n.value (2 ^ (2 * (2 * half) - 1)) with below | large
  · have stored := words.toInt positive below
    exact (binomialParts_spec positive (by rw [stored]; exact words.1) two parts).2.denominator
  · have fits : n.value < (2 ^ (2 * (2 * half)) : Nat) := by exact_mod_cast words.2
    rcases binomialParts_below positive large fits two with
      ⟨none, _⟩ | ⟨num', denom', parts', factors⟩
    · rw [none] at parts
      cases parts
    · rw [parts'] at parts
      cases parts
      exact factors.denominator

theorem cast_treeFoldBinomial (positive : 0 < half) {type : CstType} {n b : Cst} {k : Nat}
    (words : TwoWords half n.value) (right : 2 ≤ k → ¬ Misreads half type n.value k)
    (found : treeFoldBinomial half type n k = some b) :
    (b.value : ZMod (2 ^ type.precision)) = n.value.toNat.choose k := by
  rcases Nat.lt_or_ge k 2 with few | two
  · obtain rfl | rfl : k = 0 ∨ k = 1 := by omega
    · cases found
      simp
    · cases found
      rw [cast_foldConvert, Nat.choose_one_right, ← Int.cast_natCast,
        Int.toNat_of_nonneg words.1]
  · rcases lt_or_ge n.value (2 ^ (2 * (2 * half) - 1)) with below | large
    · obtain ⟨_, value, _⟩ := treeFoldBinomial_of_two_le positive words below two found
      rw [value, Int.cast_natCast]
    · exact absurd ((treeFoldBinomial_below positive words large two).mp found).1 (right two)

section Evaluation

variable (half : Nat) (type : CstType) (scevMaxExprSize : Nat)
  (foldProduct : Chrec → Cst → Option Chrec) (var : Nat) (n : Cst)

/-- `fold_build2` of the product of a chain and a constant.  What it makes of a chain
that is not a constant is a parameter. -/
def foldTimes (p : Chrec) (b : Cst) : Option Chrec :=
  match p with
  | .cst c => some (.cst (foldMult type c b))
  | .poly _ _ _ => foldProduct p b

def chrecEvaluate : Chrec → Nat → Option Chrec
  | .poly v left right, k =>
    if var < v then chrecEvaluate left k
    else if v = var then do
      let arg0 ← chrecEvaluate right (k + 1)
      let arg1 ← foldTimes type foldProduct left (← treeFoldBinomial half type n k)
      chrecFoldPlus type scevMaxExprSize arg0 arg1
    else do foldTimes type foldProduct (.poly v left right) (← treeFoldBinomial half type n k)
  | .cst c, k => do foldTimes type foldProduct (.cst c) (← treeFoldBinomial half type n k)

end Evaluation

/-- `{c0, +, c1, +, ..., +, cd}_v`. -/
def Chrec.polynomial (var : Nat) : Cst → List Cst → Chrec
  | c, [] => .cst c
  | c, next :: rest => .poly var (.cst c) (Chrec.polynomial var next rest)

def coefficients (modulus : Nat) (cs : List Cst) : List (ZMod modulus) :=
  cs.map fun c => (c.value : ZMod modulus)

theorem eval_polynomial (modulus var : Nat) (c : Cst) (rest : List Cst)
    (iteration : Nat → Nat) :
    (Chrec.polynomial var c rest).eval modulus iteration =
      Recurrences.newton (coefficients modulus (c :: rest)) (iteration var) := by
  induction rest generalizing c iteration with
  | nil => simp [Chrec.polynomial, Chrec.eval, coefficients, Recurrences.newton]
  | cons next rest ih =>
    rw [Chrec.polynomial, Chrec.eval_poly, coefficients, List.map_cons, Recurrences.newton]
    simp only [ih, Function.update_self]
    rfl

variable {type : CstType} {scevMaxExprSize var : Nat} {foldProduct : Chrec → Cst → Option Chrec}
  {n : Cst}

theorem chrecEvaluate_takes {c : Cst} {rest : List Cst} {k order : Nat} {r : Chrec}
    (found : chrecEvaluate half type scevMaxExprSize foldProduct var n
      (Chrec.polynomial var c rest) k = some r)
    (atLeast : k ≤ order) (atMost : order ≤ k + rest.length) :
    ∃ b, treeFoldBinomial half type n order = some b := by
  induction rest generalizing c k r with
  | nil =>
    obtain ⟨b, isBinomial, _⟩ := Option.bind_eq_some_iff.mp found
    obtain rfl : order = k := Nat.le_antisymm atMost atLeast
    exact ⟨b, isBinomial⟩
  | cons next rest ih =>
    rw [Chrec.polynomial, chrecEvaluate, if_neg (Nat.lt_irrefl var), if_pos rfl] at found
    obtain ⟨arg0, isRest, found⟩ := Option.bind_eq_some_iff.mp found
    obtain ⟨b, isBinomial, _⟩ := Option.bind_eq_some_iff.mp found
    rcases Nat.eq_or_lt_of_le atLeast with rfl | above
    · exact ⟨b, isBinomial⟩
    · rw [List.length_cons] at atMost
      exact ih isRest above (by omega)

theorem chrecEvaluate_polynomial {c : Cst} {rest : List Cst} {k : Nat} {r : Chrec}
    (right : ∀ order b, order ≤ k + rest.length →
      treeFoldBinomial half type n order = some b →
      (b.value : ZMod (2 ^ type.precision)) = n.value.toNat.choose order)
    (typed : ∀ cst ∈ c :: rest, cst.type = type)
    (found : chrecEvaluate half type scevMaxExprSize foldProduct var n
      (Chrec.polynomial var c rest) k = some r) :
    r.Typed type ∧ ∀ iteration, r.eval (2 ^ type.precision) iteration =
      Recurrences.forward k (coefficients (2 ^ type.precision) (c :: rest)) n.value.toNat := by
  have term : ∀ {c b : Cst} {k : Nat}, c.type = type →
      (b.value : ZMod (2 ^ type.precision)) = n.value.toNat.choose k → ∀ iteration,
        (Chrec.cst (foldMult type c b)).eval (2 ^ type.precision) iteration =
          (c.value : ZMod (2 ^ type.precision)) * n.value.toNat.choose k := by
    intro c b k isType isBinomial iteration
    rw [Chrec.eval, cast_foldMult isType, isBinomial]
  induction rest generalizing c k r with
  | nil =>
    obtain ⟨b, isBinomial, product⟩ := Option.bind_eq_some_iff.mp found
    cases product
    refine ⟨type_foldConvert _ _, fun iteration => ?_⟩
    rw [term (typed c List.mem_cons_self) (right k b (Nat.le_add_right _ _) isBinomial)]
    simp [coefficients, Recurrences.forward]
  | cons next rest ih =>
    rw [Chrec.polynomial, chrecEvaluate, if_neg (Nat.lt_irrefl var), if_pos rfl] at found
    obtain ⟨arg0, isRest, found⟩ := Option.bind_eq_some_iff.mp found
    obtain ⟨b, isBinomial, found⟩ := Option.bind_eq_some_iff.mp found
    obtain ⟨arg1, isProduct, found⟩ := Option.bind_eq_some_iff.mp found
    cases isProduct
    rw [List.length_cons] at right
    obtain ⟨restTyped, restValue⟩ := ih
      (fun order b atMost => right order b (by omega))
      (fun cst inside => typed cst (List.mem_cons_of_mem _ inside)) isRest
    have product := term (typed c List.mem_cons_self) (right k b (by omega) isBinomial)
    have sums := (chrecFoldPlus_gives restTyped
      (show (Chrec.cst (foldMult type c b)).Typed type from type_foldConvert _ _)).1 r found
    refine ⟨sums.typed, fun iteration => ?_⟩
    rw [sums.eval, combine, restValue, product, add_comm]
    rfl

/-- What is promised of the binomial coefficient of `n` over `k`: a result is the
coefficient and fits the type, and the factorial is exact. -/
def BinomialExact (half : Nat) (type : CstType) (n : Cst) (k : Nat) : Prop :=
  (∀ r, treeFoldBinomial half type n k = some r →
    r.value = (n.value.toNat.choose k : Nat) ∧ type.HasValue r.value) ∧
  ∀ num denom, 2 ≤ k → binomialParts (ofInt (2 * half) n.value) k = some (num, denom) →
    denom.toInt = k.factorial

/-- A chain of constants is evaluated to its value modulo the type unless all orders from
two on are misread; a binomial coefficient is exact unless one of the shortcuts for `k`
below two does not fit, or its number is misread. -/
theorem chrecEvaluate_binomialExact_iff (positive : 0 < half) (words : TwoWords half n.value)
    {c : Cst} {rest : List Cst} (typed : ∀ cst ∈ c :: rest, cst.type = type) (k : Nat) :
    ((2 ≤ rest.length → ∃ order, 2 ≤ order ∧ order ≤ rest.length ∧
        ¬ Misreads half type n.value order) →
      ∀ r, chrecEvaluate half type scevMaxExprSize foldProduct var n
        (Chrec.polynomial var c rest) 0 = some r →
      ∀ iteration, iteration var = n.value.toNat →
        r.eval (2 ^ type.precision) iteration =
          (Chrec.polynomial var c rest).eval (2 ^ type.precision) iteration) ∧
    (BinomialExact half type n k ↔
      (k = 0 → type.HasValue 1) ∧ (k = 1 → type.HasValue n.value) ∧
        (2 ≤ k → ¬ Misreads half type n.value k)) := by
  have nonneg := Int.toNat_of_nonneg words.1
  constructor
  · intro notAll r found iteration reached
    have right : ∀ order, order ≤ 0 + rest.length → 2 ≤ order →
        ¬ Misreads half type n.value order := by
      intro order atMost two misreads
      obtain ⟨stopped, twoStopped, atMostStopped, notMisread⟩ := notAll (by omega)
      obtain ⟨b, isBinomial⟩ := chrecEvaluate_takes found (Nat.zero_le stopped) (by omega)
      exact notMisread
        ((treeFoldBinomial_below positive words misreads.large twoStopped).mp isBinomial).1
    rw [(chrecEvaluate_polynomial (fun order b atMost isBinomial =>
      cast_treeFoldBinomial positive words (right order atMost) isBinomial) typed found).2,
      eval_polynomial, reached, Recurrences.newton_eq_forward]
  constructor
  · intro exact_
    refine ⟨?_, ?_, ?_⟩
    · rintro rfl
      exact (exact_.1 _ rfl).2
    · rintro rfl
      obtain ⟨value, fits⟩ := exact_.1 _ rfl
      rw [value, Nat.choose_one_right, nonneg] at fits
      exact fits
    · intro two misreads
      have found := (treeFoldBinomial_below positive words misreads.large two).mpr
        ⟨misreads, rfl⟩
      exact misreads.ne_choose positive words two (exact_.1 _ found).1
  · rintro ⟨one, self, notMisread⟩
    refine ⟨fun r found => ?_, fun num denom => binomialDenominator_exact positive words⟩
    rcases Nat.lt_or_ge k 2 with few | two
    · obtain rfl | rfl : k = 0 ∨ k = 1 := by omega
      · cases found
        exact ⟨by simp, one rfl⟩
      · cases found
        have value : (foldConvert type n).value = n.value := by
          rw [foldConvert]
          split
          · rfl
          · exact wrap_eq_of_inRange ((type.toIntType.contains_iff _).mp (self rfl).contains)
        rw [value, Nat.choose_one_right, nonneg]
        exact ⟨rfl, self rfl⟩
    · rcases lt_or_ge n.value (2 ^ (2 * (2 * half) - 1)) with below | large
      · exact (treeFoldBinomial_of_two_le positive words below two found).2
      · exact absurd ((treeFoldBinomial_below positive words large two).mp found).1
          (notMisread two)

/-- `{1, +, 2, +, 3}_1` after five iterations, and five over two, in `int`. -/
theorem chrecEvaluate_binomialExact_iff_int :
    BinomialExact 32 intType { type := intType, value := 5 } 2 ↔
      (2 = 0 → intType.HasValue 1) ∧ (2 = 1 → intType.HasValue 5) ∧
        (2 ≤ 2 → ¬ Misreads 32 intType 5 2) :=
  (@chrecEvaluate_binomialExact_iff 32 intType 20 1 (fun _ _ => none)
    { type := intType, value := 5 } (by decide) ⟨by decide, by decide⟩
    { type := intType, value := 1 } [{ type := intType, value := 2 },
      { type := intType, value := 3 }] (by simp) 2).2

/-- `unsigned char`. -/
def unsignedChar : CstType where
  unsigned := true
  precision := 8
  positive := by decide
  code := .integer
  typeMin := 0
  typeMax := 255
  modeBits := 8
  min_le := by decide
  le_max := by decide
  nonempty := by decide
  fits := by decide

/-- Three hundred over one is 44 in `unsigned char`. -/
theorem treeFoldBinomial_truncated :
    ¬BinomialExact 32 unsignedChar { type := intType, value := 300 } 1 := by
  intro exact_
  have wrong := (exact_.1 _ rfl).1
  rw [Nat.choose_one_right] at wrong
  exact absurd wrong (by decide)

/-- In words of 32 bits the greatest `unsigned long long` is read as -1, and
`{0, +, 0, +, 1}_1` is one there. -/
example : ∃ type : CstType, type.unsigned = true ∧ type.precision = 64 ∧
    chrecEvaluate 16 type 20 (fun _ _ => none) 1 { type := type, value := 2 ^ 64 - 1 }
      (Chrec.polynomial 1 { type := type, value := 0 }
        [{ type := type, value := 0 }, { type := type, value := 1 }]) 0 =
      some (.cst { type := type, value := 1 }) :=
  ⟨⟨⟨true, 64, by decide⟩, .integer, 0, 2 ^ 64 - 1, 64, by decide, by decide, by decide,
    by decide⟩, rfl, rfl, by decide +kernel⟩

end GccCil.Gcc.Scev
