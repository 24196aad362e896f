import GccCil.Gcc.DivisionRounding

/-!
# Division to the nearest integer

The test of `ROUND_DIV_EXPR` is strict where its comment asks for ties to
round, reads a large unsigned remainder or divisor as negative, and takes the
direction from the truncated quotient, which has lost its sign at zero.  The
division is exact on the operands that none of this touches.
-/

namespace GccCil.Gcc.FoldConst

open GccCil.Lib DoubleInt

variable {half : Nat}

/-- The operands whose quotient is rounded right.  Unless an unsigned divisor
has its top bit set, the remainder is not exactly half of the divisor and no
negative ratio next to zero has to become minus one; for the other divisors
twice the remainder is on the same side of the divisor and of its negation. -/
def RoundsExactly (w : Nat) (uns : Bool) (num den : Int) : Prop :=
  if uns = true ∧ (2 ^ (2 * w) : Nat) ≤ 2 * den then
    let twice := 2 * (num % den)
    twice < den ∧ twice ≤ (2 ^ (2 * w) : Nat) - den ∨
      den ≤ twice ∧ (2 ^ (2 * w) : Nat) - den < twice ∧ twice ≠ (2 ^ (2 * w) : Nat) ∧
        twice < (2 ^ (2 * w) : Nat) + den
  else
    2 * |num.tmod den| ≠ |den| ∧
      ¬ (Vrp.quoNeg uns num den = true ∧ |num| < |den| ∧ |den| < 2 * |num|)

instance (w : Nat) (uns : Bool) (num den : Int) : Decidable (RoundsExactly w uns num den) := by
  unfold RoundsExactly
  infer_instance

theorem ofInt_inj_of_close (positive : 0 < half) {i j : Int} (close : |i - j| ≤ 2) :
    ofInt (2 * half) i = ofInt (2 * half) j ↔ i = j := by
  have modulus := two_lt_modulus positive
  rw [ofInt_eq_ofInt_iff]
  constructor
  · intro congruent
    have := Int.eq_zero_of_abs_lt_dvd (Int.modEq_iff_dvd.mp congruent.symm) (by omega)
    omega
  · rintro rfl
    rfl

theorem fitsDouble_value (positive : 0 < half) (uns : Bool) (x : DoubleInt (2 * half)) :
    Vrp.FitsDouble (2 * half) uns (x.value uns) := by
  have fits := value_inRange (show 0 < 2 * half by omega) uns x
  have double : ((2 ^ (2 * (2 * half)) : Nat) : Int) = 2 * 2 ^ (2 * (2 * half) - 1) := by
    push_cast
    rw [← pow_succ']
    congr 1
    omega
  cases uns with
  | true =>
    rw [inRange_unsigned, double] at fits
    exact fits
  | false =>
    rw [inRange_signed, double] at fits
    exact ⟨by omega, by omega⟩

theorem strictTest_eq_iff {x y : Int} {uns : Bool} (nonzero : y ≠ 0)
    (plain : uns = true → 0 ≤ x ∧ 0 ≤ y) :
    (if |y| < 2 * |x.tmod y| then (if x.tdiv y < 0 then x.tdiv y - 1 else x.tdiv y + 1)
      else x.tdiv y) = Vrp.roundRatio .roundDiv ((x : ℚ) / y) ↔
    2 * |x.tmod y| ≠ |y| ∧ ¬ (Vrp.quoNeg uns x y = true ∧ |x| < |y| ∧ |y| < 2 * |x|) := by
  have divisorPositive := abs_pos.mpr nonzero
  rw [Vrp.nearest_eq nonzero]
  rcases lt_trichotomy |y| (2 * |x.tmod y|) with rounds | tie | stays
  · have remNonzero : x.tmod y ≠ 0 := by
      intro zero
      rw [zero, abs_zero] at rounds
      omega
    have sign := Vrp.tdiv_neg_iff nonzero plain remNonzero
    have close : (Vrp.quoNeg uns x y = true ∧ |x| < |y| ∧ |y| < 2 * |x|) ↔
        Vrp.quoNeg uns x y = true ∧ |x| < |y| := by
      refine ⟨fun ⟨negative, small, _⟩ => ⟨negative, small⟩, fun ⟨negative, small⟩ => ?_⟩
      rw [(Vrp.tdiv_of_abs_lt small).2] at rounds
      exact ⟨negative, small, rounds⟩
    rw [if_pos rounds, if_pos rounds.le, close, ← sign]
    refine Iff.trans ?_ (and_iff_right (ne_of_gt rounds)).symm
    by_cases below : x.tdiv y < 0 <;> by_cases nonneg : 0 ≤ (x : ℚ) / y <;>
      simp only [below, nonneg, if_true, if_false, not_true_eq_false, not_false_eq_true, iff_true,
        iff_false] <;> omega
  · rw [if_neg (by omega), if_pos (by omega)]
    refine iff_of_false ?_ fun right => right.1 tie.symm
    split <;> omega
  · rw [if_neg (by omega), if_neg (by omega)]
    refine iff_of_true rfl ⟨ne_of_lt stays, ?_⟩
    rintro ⟨_, small, large⟩
    rw [(Vrp.tdiv_of_abs_lt small).2] at stays
    omega

theorem roundDiv_iff (positive : 0 < half) (uns : Bool) (num den : DoubleInt (2 * half))
    (nonzero : den.value uns ≠ 0)
    (small : ¬ (uns = true ∧ (2 ^ (2 * (2 * half)) : Nat) ≤ 2 * den.value uns)) :
    ofInt (2 * half)
        (Vrp.divAndRoundDouble (2 * half) uns .roundDiv (num.value uns) (den.value uns)) =
      ofInt (2 * half) (Vrp.roundRatio .roundDiv ((num.value uns : ℚ) / den.value uns)) ↔
    RoundsExactly (2 * half) uns (num.value uns) (den.value uns) := by
  have xFits := fitsDouble_value positive uns num
  have yFits := fitsDouble_value positive uns den
  have plain : uns = true → 0 ≤ num.value uns ∧ 0 ≤ den.value uns := by
    rintro rfl
    exact ⟨Int.natCast_nonneg _, Int.natCast_nonneg _⟩
  have double : ((2 ^ (2 * (2 * half)) : Nat) : Int) = 2 * 2 ^ (2 * (2 * half) - 1) := by
    push_cast
    rw [← pow_succ']
    congr 1
    omega
  rw [RoundsExactly, if_neg small,
    Vrp.roundDiv_eq (by omega) nonzero xFits yFits fun unsigned => by
      by_contra above
      exact small ⟨unsigned, by omega⟩]
  rw [ofInt_inj_of_close positive, strictTest_eq_iff nonzero plain]
  rw [Vrp.nearest_eq nonzero, abs_le]
  constructor <;> split_ifs <;> omega

theorem signedDouble_neg_iff {w : Nat} {i : Int} (nonneg : 0 ≤ i)
    (below : i < (2 ^ (2 * w) : Nat)) (even : 2 ∣ 2 ^ (2 * w)) :
    Vrp.signedDouble w i < 0 ↔ ((2 ^ (2 * w) : Nat) : Int) ≤ 2 * i := by
  obtain ⟨top, topEq⟩ := even
  rw [topEq] at below ⊢
  rw [Vrp.signedDouble, wrap_signed, topEq, Int.bmod, Int.emod_eq_of_lt nonneg below]
  split <;> omega

theorem unsignedDouble_neg {w : Nat} {i : Int} (multiple : Int)
    (lower : 0 ≤ multiple * (2 ^ (2 * w) : Nat) - i)
    (upper : multiple * (2 ^ (2 * w) : Nat) - i < (2 ^ (2 * w) : Nat)) :
    Vrp.unsignedDouble w (-i) = multiple * (2 ^ (2 * w) : Nat) - i := by
  rw [Vrp.unsignedDouble, wrap_unsigned, ← Int.emod_eq_of_lt lower upper]
  have shifted : multiple * (2 ^ (2 * w) : Nat) - i = -i + multiple * (2 ^ (2 * w) : Nat) := by ring
  rw [shifted, Int.add_mul_emod_self_right]

theorem roundDiv_large_iff (positive : 0 < half) (num den : DoubleInt (2 * half))
    (large : (2 ^ (2 * (2 * half)) : Nat) ≤ 2 * den.value true) :
    ofInt (2 * half)
        (Vrp.divAndRoundDouble (2 * half) true .roundDiv (num.value true) (den.value true)) =
      ofInt (2 * half) (Vrp.roundRatio .roundDiv ((num.value true : ℚ) / den.value true)) ↔
    RoundsExactly (2 * half) true (num.value true) (den.value true) := by
  obtain ⟨numNonneg, numBelow⟩ :=
    (inRange_unsigned _ _).mp (value_inRange (show 0 < 2 * half by omega) true num)
  obtain ⟨denNonneg, denBelow⟩ :=
    (inRange_unsigned _ _).mp (value_inRange (show 0 < 2 * half by omega) true den)
  have modulus := two_lt_modulus positive
  have even : 2 ∣ 2 ^ (2 * (2 * half)) := dvd_pow_self 2 (by omega)
  have sign (i : Int) (nonneg : 0 ≤ i) (below : i < (2 ^ (2 * (2 * half)) : Nat)) :=
    signedDouble_neg_iff nonneg below even
  rw [RoundsExactly, if_pos ⟨rfl, large⟩]
  generalize num.value true = x at *
  generalize den.value true = y at *
  have nonzero : y ≠ 0 := by omega
  have ratio : (0 : ℚ) ≤ (x : ℚ) / y :=
    div_nonneg (by exact_mod_cast numNonneg) (by exact_mod_cast denNonneg)
  have rem := Int.emod_nonneg x nonzero
  have remBelow := Int.emod_lt_of_pos x (show 0 < y by omega)
  have quoSmall : x / y < 2 := Int.ediv_lt_of_lt_mul (by omega) (by omega)
  have quoNonneg := Int.ediv_nonneg numNonneg denNonneg
  have divisor : Vrp.unsignedDouble (2 * half)
      (if Vrp.signedDouble (2 * half) y < 0 then -y else y) = (2 ^ (2 * (2 * half)) : Nat) - y := by
    rw [if_pos ((sign y denNonneg denBelow).mpr large), unsignedDouble_neg 1 (by omega) (by omega)]
    ring
  have result : Vrp.divAndRoundDouble (2 * half) true .roundDiv x y =
      if ((2 ^ (2 * (2 * half)) : Nat) : Int) - y < Vrp.unsignedDouble (2 * half)
        (2 * if Vrp.signedDouble (2 * half) (x % y) < 0 then -(x % y) else x % y)
      then x / y + 1 else x / y := by
    have small : ¬ Vrp.signedDouble (2 * half) (x / y) < 0 := by
      rw [sign _ quoNonneg (by omega)]
      omega
    simp only [Vrp.divAndRoundDouble, if_true, divisor, Int.tdiv_eq_ediv_of_nonneg numNonneg,
      Int.tmod_eq_emod_of_nonneg numNonneg, small, if_false]
  rw [result, Vrp.nearest_eq nonzero, Int.tdiv_eq_ediv_of_nonneg numNonneg,
    Int.tmod_eq_emod_of_nonneg numNonneg, abs_of_nonneg rem, abs_of_nonneg denNonneg, if_pos ratio]
  have decided (condition : Prop) [Decidable condition] :
      ofInt (2 * half) (if condition then x / y + 1 else x / y) =
        ofInt (2 * half) (if y ≤ 2 * (x % y) then x / y + 1 else x / y) ↔
      (condition ↔ y ≤ 2 * (x % y)) := by
    rw [ofInt_inj_of_close positive]
    · by_cases holds : condition <;> by_cases above : y ≤ 2 * (x % y) <;> simp [holds, above]
    · rw [abs_le]
      split_ifs <;> omega
  rw [decided]
  dsimp only
  rcases lt_trichotomy (2 * (x % y)) (2 ^ (2 * (2 * half)) : Nat) with low | middle | high
  · rw [if_neg (by rw [sign _ rem (by omega)]; omega),
      Vrp.unsignedDouble_eq (by omega) low]
    omega
  · rw [if_pos (by rw [sign _ rem (by omega)]; omega), mul_neg,
      unsignedDouble_neg 1 (by omega) (by omega)]
    omega
  · rw [if_pos (by rw [sign _ rem (by omega)]; omega), mul_neg,
      unsignedDouble_neg 2 (by omega) (by omega)]
    omega

/-- Division to nearest stores the nearest integer, ties away from zero, and
its remainder exactly for the operands that it rounds right. -/
theorem nearestDivision_exact_iff (positive : 0 < half) (code : DivCode) (uns : Bool)
    (num den : DoubleInt (2 * half)) (nearest : code.rounding = .roundDiv)
    (nonzero : den.value uns ≠ 0) :
    let quo := Vrp.roundRatio .roundDiv ((num.value uns : ℚ) / den.value uns)
    ((divAndRoundDouble code uns num den).quo = ofInt (2 * half) quo ∧
        (divAndRoundDouble code uns num den).rem =
          ofInt (2 * half) (num.value uns - quo * den.value uns)) ↔
      RoundsExactly (2 * half) uns (num.value uns) (den.value uns) := by
  intro quo
  obtain ⟨quotient, rest⟩ := divAndRoundDouble_refines positive code uns num den nonzero
  rw [nearest] at quotient rest
  have exactly : (divAndRoundDouble code uns num den).quo = ofInt (2 * half) quo ↔
      RoundsExactly (2 * half) uns (num.value uns) (den.value uns) := by
    rw [quotient]
    by_cases large : uns = true ∧ (2 ^ (2 * (2 * half)) : Nat) ≤ 2 * den.value uns
    · obtain ⟨rfl, divisor⟩ := large
      exact roundDiv_large_iff positive num den divisor
    · exact roundDiv_iff positive uns num den nonzero large
  rw [← exactly, and_iff_left_iff_imp]
  intro right
  rw [rest, ← remainder_ofInt positive, ← remainder_ofInt positive, ← quotient, right]

theorem nearestDivision_exact_eleven_quarters :
    let num := ofInt (2 * 32) (-11)
    let den := ofInt (2 * 32) 4
    let quo := Vrp.roundRatio .roundDiv ((num.value false : ℚ) / den.value false)
    (divAndRoundDouble .roundDiv false num den).quo = ofInt (2 * 32) quo ∧
      (divAndRoundDouble .roundDiv false num den).rem =
        ofInt (2 * 32) (num.value false - quo * den.value false) :=
  (nearestDivision_exact_iff (by decide) .roundDiv false _ _ rfl (by decide)).mpr
    (by decide)

/-- Seven halves are folded to three; as a tie it should round to four. -/
theorem roundDiv_tie :
    (divAndRoundDouble .roundDiv false (ofInt (2 * 32) 7) (ofInt (2 * 32) 2)).quo =
        ofInt (2 * 32) 3 ∧
      Vrp.roundRatio .roundDiv (((7 : Int) : ℚ) / (2 : Int)) = 4 ∧
      ofInt (2 * 32) 3 ≠ ofInt (2 * 32) 4 := by
  refine ⟨by decide, ?_, by decide⟩
  norm_num [Vrp.roundRatio]

end GccCil.Gcc.FoldConst
