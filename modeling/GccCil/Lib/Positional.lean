import Mathlib.Algebra.BigOperators.Intervals
import Mathlib.Algebra.Order.BigOperators.Group.Finset
import Mathlib.Tactic

/-!
# Positional numerals and long division

Digits are functions on positions, lowest first, and `numeral` is the number
the first digits denote.  A carry pass walks over a window of digits with a
carry; one telescoping sum accounts for addition, for subtraction with a
borrow, and for multiplication by a digit.  The last section bounds the
estimate of a quotient digit from the leading digits of the operands.
-/

namespace GccCil.Lib

section Numerals

variable {R : Type*} [CommSemiring R]

/-- The number whose first `count` digits, lowest first, are `digits`. -/
def numeral (base : R) (digits : Nat → R) : Nat → R
  | 0 => 0
  | count + 1 => numeral base digits count + digits count * base ^ count

@[simp]
theorem numeral_zero (base : R) (digits : Nat → R) : numeral base digits 0 = 0 := rfl

theorem numeral_succ (base : R) (digits : Nat → R) (count : Nat) :
    numeral base digits (count + 1) =
      numeral base digits count + digits count * base ^ count := rfl

theorem numeral_congr {base : R} {first second : Nat → R} {count : Nat}
    (same : ∀ i < count, first i = second i) :
    numeral base first count = numeral base second count := by
  induction count with
  | zero => rfl
  | succ count ih =>
    rw [numeral_succ, numeral_succ, ih (fun i below => same i (Nat.lt_succ_of_lt below)),
      same count (Nat.lt_succ_self count)]

theorem numeral_append (base : R) (digits : Nat → R) (low high : Nat) :
    numeral base digits (low + high) =
      numeral base digits low + base ^ low * numeral base (fun i => digits (low + i)) high := by
  induction high with
  | zero => simp
  | succ high ih =>
    rw [← Nat.add_assoc, numeral_succ, ih, numeral_succ, pow_add]
    ring

theorem numeral_add (base : R) (first second : Nat → R) (count : Nat) :
    numeral base (fun i => first i + second i) count =
      numeral base first count + numeral base second count := by
  induction count with
  | zero => simp
  | succ count ih =>
    simp only [numeral_succ, ih]
    ring

theorem numeral_mul (base factor : R) (digits : Nat → R) (count : Nat) :
    numeral base (fun i => factor * digits i) count = factor * numeral base digits count := by
  induction count with
  | zero => simp
  | succ count ih =>
    simp only [numeral_succ, ih]
    ring

theorem numeral_const_zero (base : R) (count : Nat) :
    numeral base (fun _ => (0 : R)) count = 0 := by
  induction count with
  | zero => rfl
  | succ count ih => simp [numeral_succ, ih]

end Numerals

theorem natCast_numeral (base : Nat) (digits : Nat → Nat) (count : Nat) :
    ((numeral base digits count : Nat) : Int) =
      numeral (base : Int) (fun i => (digits i : Int)) count := by
  induction count with
  | zero => rfl
  | succ count ih =>
    simp only [numeral_succ, ← ih]
    push_cast
    rfl

theorem numeral_lt {base : Nat} {digits : Nat → Nat} {count : Nat}
    (bounded : ∀ i < count, digits i < base) : numeral base digits count < base ^ count := by
  induction count with
  | zero => simp
  | succ count ih =>
    have below := ih (fun i below => bounded i (Nat.lt_succ_of_lt below))
    have digit := bounded count (Nat.lt_succ_self count)
    calc numeral base digits (count + 1)
        = numeral base digits count + digits count * base ^ count := rfl
      _ < base ^ count + digits count * base ^ count := Nat.add_lt_add_right below _
      _ = (digits count + 1) * base ^ count := by ring
      _ ≤ base * base ^ count := Nat.mul_le_mul_right _ digit
      _ = base ^ (count + 1) := by ring

theorem digit_le_numeral (base : Nat) (digits : Nat → Nat) {i count : Nat} (inside : i < count) :
    digits i * base ^ i ≤ numeral base digits count := by
  induction count with
  | zero => exact absurd inside (Nat.not_lt_zero i)
  | succ count ih =>
    rw [numeral_succ]
    rcases Nat.lt_succ_iff_lt_or_eq.mp inside with earlier | rfl
    · exact Nat.le_trans (ih earlier) (Nat.le_add_right _ _)
    · exact Nat.le_add_left _ _

section CarryPass

variable {Word : Type*}

/-- The digits and the carry after the first `count` steps of a pass that
starts at position `offset`.  A step takes its number, the digit it finds and
the carry, and returns the new digit and the new carry. -/
def carryPass (step : Nat → Word → Word → Word × Word) (offset : Nat) (digits : Nat → Word)
    (carry : Word) : Nat → (Nat → Word) × Word
  | 0 => (digits, carry)
  | count + 1 =>
    let state := carryPass step offset digits carry count
    let work := step count (state.1 (offset + count)) state.2
    (Function.update state.1 (offset + count) work.1, work.2)

theorem carryPass_frame (step : Nat → Word → Word → Word × Word) (offset : Nat)
    (digits : Nat → Word) (carry : Word) (count : Nat) {i : Nat}
    (outside : i < offset ∨ offset + count ≤ i) :
    (carryPass step offset digits carry count).1 i = digits i := by
  induction count with
  | zero => rfl
  | succ count ih =>
    rw [carryPass]
    dsimp only
    rw [Function.update_of_ne (by omega), ih (by omega)]

/-- When every step keeps `digit + base * carry`, so does the whole pass. -/
theorem carryPass_spec (step : Nat → Word → Word → Word × Word) (offset : Nat)
    (digits : Nat → Word) {carry : Word} {count : Nat} (value carryValue : Word → Int)
    (base : Int) (exact : Nat → Int) {Digit Carry : Word → Prop} (initial : Carry carry)
    (keeps : ∀ i < count, ∀ carry, Carry carry →
      Digit (step i (digits (offset + i)) carry).1 ∧
        Carry (step i (digits (offset + i)) carry).2 ∧
        value (step i (digits (offset + i)) carry).1 +
          base * carryValue (step i (digits (offset + i)) carry).2 =
            exact i + carryValue carry) :
    (∀ i < count, Digit ((carryPass step offset digits carry count).1 (offset + i))) ∧
      Carry (carryPass step offset digits carry count).2 ∧
      numeral base
          (fun i => value ((carryPass step offset digits carry count).1 (offset + i))) count +
        base ^ count * carryValue (carryPass step offset digits carry count).2 =
          numeral base exact count + carryValue carry := by
  induction count with
  | zero => exact ⟨fun i below => absurd below (Nat.not_lt_zero i), initial, by simp [carryPass]⟩
  | succ count ih =>
    obtain ⟨inDigits, inCarry, total⟩ :=
      ih (fun i below => keeps i (Nat.lt_succ_of_lt below))
    have found := carryPass_frame step offset digits carry count
      (Or.inr (Nat.le_refl (offset + count)))
    obtain ⟨newDigit, newCarry, balance⟩ := keeps count (Nat.lt_succ_self count) _ inCarry
    have earlier : ∀ i < count,
        (carryPass step offset digits carry (count + 1)).1 (offset + i) =
          (carryPass step offset digits carry count).1 (offset + i) := by
      intro i below
      rw [carryPass]
      exact Function.update_of_ne (by omega) _ _
    have last : (carryPass step offset digits carry (count + 1)).1 (offset + count) =
        (step count (digits (offset + count))
          (carryPass step offset digits carry count).2).1 := by
      rw [carryPass, ← found]
      exact Function.update_self _ _ _
    have lastCarry : (carryPass step offset digits carry (count + 1)).2 =
        (step count (digits (offset + count))
          (carryPass step offset digits carry count).2).2 := by
      rw [carryPass, ← found]
    refine ⟨?_, ?_, ?_⟩
    · intro i below
      rcases Nat.lt_succ_iff_lt_or_eq.mp below with inside | rfl
      · rw [earlier i inside]
        exact inDigits i inside
      · rw [last]
        exact newDigit
    · rw [lastCarry]
      exact newCarry
    · rw [numeral_succ, numeral_succ, last, lastCarry,
        numeral_congr (fun i below => congrArg value (earlier i below))]
      linear_combination total + base ^ count * balance

end CarryPass

theorem div_mod_of_split {dividend divisor quotient rest : Nat}
    (split : dividend = quotient * divisor + rest) (small : rest < divisor) :
    dividend / divisor = quotient ∧ dividend % divisor = rest := by
  apply (Nat.div_mod_unique (Nat.zero_lt_of_lt small)).mpr
  refine ⟨?_, small⟩
  rw [split]
  ring

section QuotientEstimate

/-! The dividend starts with the digits of `work` and then `third`, the divisor
with `top` and then `next`; `scale` is the weight of the last digit that the
estimate looks at. -/

variable {base work third top next scale dividend divisor estimate rest : Nat}

theorem leading_bounds {value low lead : Nat} (split : value = low + lead * scale)
    (below : low < scale) : lead * scale ≤ value ∧ value < (lead + 1) * scale := by
  rw [split, Nat.succ_mul]
  omega

/-- A dividend whose quotient is one digit has no larger leading digit than
the divisor. -/
theorem leading_le {first second : Nat} (below : dividend < divisor * base)
    (nextDigit : next < base) (divisorUpper : divisor < (top * base + next + 1) * scale)
    (dividendLower : ((first * base + second) * base + third) * scale ≤ dividend) :
    first ≤ top := by
  by_contra larger
  have impossible : dividend < dividend := by
    calc dividend < divisor * base := below
      _ ≤ (top * base + next + 1) * scale * base :=
          Nat.mul_le_mul_right _ (Nat.le_of_lt divisorUpper)
      _ ≤ (top * base + base) * scale * base :=
          Nat.mul_le_mul_right _ (Nat.mul_le_mul_right _ (by omega))
      _ = (top + 1) * (base * base * scale) := by ring
      _ ≤ first * (base * base * scale) := Nat.mul_le_mul_right _ (by omega)
      _ ≤ first * (base * base * scale) + (second * base + third) * scale := Nat.le_add_right _ _
      _ = ((first * base + second) * base + third) * scale := by ring
      _ ≤ dividend := dividendLower
  exact Nat.lt_irrefl _ impossible

theorem lt_succ_div_mul (topPositive : 0 < top) (divisorLower : top * (base * scale) ≤ divisor)
    (dividendUpper : dividend < (work + 1) * (base * scale)) :
    dividend < (work / top + 1) * divisor := by
  have rounded : work + 1 ≤ (work / top + 1) * top :=
    Nat.lt_mul_of_div_lt (Nat.lt_succ_self _) topPositive
  calc dividend < (work + 1) * (base * scale) := dividendUpper
    _ ≤ (work / top + 1) * top * (base * scale) := Nat.mul_le_mul_right _ rounded
    _ = (work / top + 1) * (top * (base * scale)) := Nat.mul_assoc _ _ _
    _ ≤ (work / top + 1) * divisor := Nat.mul_le_mul_left _ divisorLower

/-- An estimate whose product exceeds the leading digits is too large. -/
theorem lt_mul_of_leading (divisorLower : (top * base + next) * scale ≤ divisor)
    (dividendUpper : dividend < (work * base + third + 1) * scale)
    (exceeds : work * base + third < estimate * (top * base + next)) :
    dividend < estimate * divisor := by
  calc dividend < (work * base + third + 1) * scale := dividendUpper
    _ ≤ estimate * (top * base + next) * scale := Nat.mul_le_mul_right _ exceeds
    _ = estimate * ((top * base + next) * scale) := Nat.mul_assoc _ _ _
    _ ≤ estimate * divisor := Nat.mul_le_mul_left _ divisorLower

/-- An estimate whose product does not exceed the leading digits is at most
one too large. -/
theorem pred_mul_le_of_leading (topPositive : 0 < top)
    (divisorUpper : divisor < (top * base + next + 1) * scale)
    (dividendLower : (work * base + third) * scale ≤ dividend) (small : estimate < base)
    (within : estimate * (top * base + next) ≤ work * base + third) :
    (estimate - 1) * divisor ≤ dividend := by
  have baseLe : base ≤ top * base + next := by
    have := Nat.mul_le_mul_right base topPositive
    omega
  cases estimate with
  | zero => simp
  | succ quotient =>
    calc quotient * divisor
        ≤ quotient * ((top * base + next + 1) * scale) :=
          Nat.mul_le_mul_left _ (Nat.le_of_lt divisorUpper)
      _ = (quotient * (top * base + next) + quotient) * scale := by ring
      _ ≤ (quotient * (top * base + next) + (top * base + next)) * scale :=
          Nat.mul_le_mul_right _ (by omega)
      _ = (quotient + 1) * (top * base + next) * scale := by ring
      _ ≤ (work * base + third) * scale := Nat.mul_le_mul_right _ within
      _ ≤ dividend := dividendLower

/-- Scaling by the quotient of the base and the successor of the leading digit
makes that digit at least half of the base. -/
theorem scale_normalizes (topPositive : 0 < top) (even : 2 ∣ base) (fits : top < base) :
    0 < base / (top + 1) ∧ base / (top + 1) * (top + 1) ≤ base ∧
      base ≤ 2 * (base / (top + 1) * top) := by
  have division := Nat.div_add_mod base (top + 1)
  have rest := Nat.mod_lt base (Nat.succ_pos top)
  have quotientPositive : 0 < base / (top + 1) := Nat.div_pos fits (Nat.succ_pos top)
  refine ⟨quotientPositive, Nat.div_mul_le_self _ _, ?_⟩
  generalize base / (top + 1) = quotient at *
  generalize base % (top + 1) = remainder at *
  obtain ⟨more, rfl⟩ : ∃ more, quotient = more + 1 := ⟨quotient - 1, by omega⟩
  obtain ⟨further, rfl⟩ : ∃ further, top = further + 1 := ⟨top - 1, by omega⟩
  -- the difference is even and at least minus one
  have expanded : base = more * further + 2 * more + further + 2 + remainder := by
    rw [← division]
    ring
  have doubled : 2 * ((more + 1) * (further + 1)) =
      2 * (more * further) + 2 * more + 2 * further + 2 := by ring
  obtain ⟨halfBase, halfEq⟩ := even
  omega

/-- With a divisor whose leading digit is at least half the base, no estimate
from two digits is more than two too large. -/
theorem sub_two_mul_le (normalized : base ≤ 2 * top)
    (divisorUpper : divisor < (top + 1) * (base * scale))
    (dividendLower : work * (base * scale) ≤ dividend) (small : estimate < base)
    (within : estimate * top ≤ work) : (estimate - 2) * divisor ≤ dividend := by
  obtain low | ⟨quotient, rfl⟩ : estimate < 2 ∨ ∃ quotient, estimate = quotient + 2 := by
    rcases Nat.lt_or_ge estimate 2 with low | high
    · exact Or.inl low
    · exact Or.inr ⟨estimate - 2, by omega⟩
  · simp [Nat.sub_eq_zero_of_le (Nat.le_of_lt low)]
  · calc quotient * divisor
        ≤ quotient * ((top + 1) * (base * scale)) :=
          Nat.mul_le_mul_left _ (Nat.le_of_lt divisorUpper)
      _ = (quotient * top + quotient) * (base * scale) := by ring
      _ ≤ (quotient * top + 2 * top) * (base * scale) :=
          Nat.mul_le_mul_right _ (by omega)
      _ = (quotient + 2) * top * (base * scale) := by ring
      _ ≤ work * (base * scale) := Nat.mul_le_mul_right _ within
      _ ≤ dividend := dividendLower

/-- The estimate after the test of the next digits: never low, and at most one
too large. -/
theorem refined_estimate (normalized : base ≤ 2 * top) (small : estimate < base)
    (nextDigit : next < base) (thirdDigit : third < base)
    (divisorLower : (top * base + next) * scale ≤ divisor)
    (divisorUpper : divisor < (top * base + next + 1) * scale)
    (dividendLower : (work * base + third) * scale ≤ dividend)
    (dividendUpper : dividend < (work * base + third + 1) * scale)
    (notLow : dividend < (estimate + 1) * divisor) (split : work = estimate * top + rest) :
    let refined :=
      if rest < base ∧ rest * base + third < next * estimate then estimate - 1 else estimate
    dividend < (refined + 1) * divisor ∧ (refined - 1) * divisor ≤ dividend := by
  have topPositive : 0 < top := by omega
  have product : estimate * (top * base + next) + rest * base =
      work * base + next * estimate := by
    rw [split]
    ring
  by_cases test : rest < base ∧ rest * base + third < next * estimate
  · have high : dividend < estimate * divisor :=
      lt_mul_of_leading divisorLower dividendUpper (by omega)
    have positive : 0 < estimate := by
      rcases Nat.eq_zero_or_pos estimate with rfl | positive
      · simp at high
      · exact positive
    have wide : divisor < (top + 1) * (base * scale) := by
      calc divisor < (top * base + next + 1) * scale := divisorUpper
        _ ≤ (top * base + base) * scale := Nat.mul_le_mul_right _ (by omega)
        _ = (top + 1) * (base * scale) := by ring
    have lower : work * (base * scale) ≤ dividend := by
      calc work * (base * scale) = work * base * scale := (Nat.mul_assoc _ _ _).symm
        _ ≤ (work * base + third) * scale := Nat.mul_le_mul_right _ (Nat.le_add_right _ _)
        _ ≤ dividend := dividendLower
    have twoHigh := sub_two_mul_le normalized wide lower small (by omega)
    simp only [if_pos test]
    refine ⟨?_, ?_⟩
    · rwa [Nat.sub_add_cancel positive]
    · rwa [Nat.sub_sub]
  · have within : estimate * (top * base + next) ≤ work * base + third := by
      rcases Nat.lt_or_ge rest base with close | far
      · have := Nat.le_of_not_lt fun exceeds => test ⟨close, exceeds⟩
        omega
      · have squares : base * base ≤ rest * base := Nat.mul_le_mul_right base far
        have digits : next * estimate ≤ base * base :=
          Nat.mul_le_mul (Nat.le_of_lt nextDigit) (Nat.le_of_lt small)
        omega
    simp only [if_neg test]
    exact ⟨notLow,
      pred_mul_le_of_leading topPositive divisorUpper dividendLower small within⟩

/-- The subtraction of an estimate leaves the remainder or, for an estimate one
too large, borrows once from beyond the window. -/
theorem subtract_estimate {window weight low top carry : Nat} (windowBelow : window < weight)
    (divisorBelow : divisor < weight) (split : dividend = low + top * weight)
    (subtracted : window + estimate * divisor = low + weight * carry)
    (notLow : dividend < (estimate + 1) * divisor) (high : (estimate - 1) * divisor ≤ dividend) :
    (carry ≤ top → dividend = estimate * divisor + window) ∧
      (top < carry → window + estimate * divisor = dividend + weight) := by
  constructor
  · intro fits
    obtain ⟨excess, rfl⟩ := Nat.exists_eq_add_of_le fits
    have total : dividend = estimate * divisor + window + excess * weight := by
      linarith
    have none : excess = 0 := by
      by_contra some
      have := Nat.le_mul_of_pos_left weight (Nat.pos_of_ne_zero some)
      linarith
    rw [total, none, Nat.zero_mul, Nat.add_zero]
  · intro borrows
    obtain ⟨excess, rfl⟩ := Nat.exists_eq_add_of_lt borrows
    have total : window + estimate * divisor = dividend + (excess + 1) * weight := by
      linarith
    have close : estimate * divisor ≤ dividend + divisor := by
      cases estimate with
      | zero => simp
      | succ quotient =>
        rw [Nat.succ_mul]
        exact Nat.add_le_add_right high divisor
    have none : excess = 0 := by
      by_contra some
      have := Nat.le_mul_of_pos_left weight (Nat.pos_of_ne_zero some)
      linarith
    rw [total, none, Nat.zero_add, Nat.one_mul]

theorem restore_estimate {window restored weight carry : Nat} (windowBelow : window < weight)
    (restoredBelow : restored < weight) (divisorBelow : divisor < weight)
    (borrowed : window + estimate * divisor = dividend + weight)
    (high : (estimate - 1) * divisor ≤ dividend)
    (added : restored + weight * carry = window + divisor) :
    0 < estimate ∧ dividend = (estimate - 1) * divisor + restored ∧ restored < divisor := by
  cases estimate with
  | zero => omega
  | succ quotient =>
    rw [Nat.succ_mul] at borrowed
    rw [Nat.add_sub_cancel] at high ⊢
    have carryPositive : carry ≠ 0 := by
      rintro rfl
      omega
    have carrySmall : carry < 2 := by
      by_contra large
      have := Nat.mul_le_mul_left weight (Nat.le_of_not_lt large)
      omega
    obtain rfl : carry = 1 := by omega
    omega

end QuotientEstimate

end GccCil.Lib
