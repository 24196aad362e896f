import Mathlib.Data.Int.ModEq
import Mathlib.Tactic

/-!
# Fixed-width integers as integers

A machine integer of width `w` is an ordinary integer in the range of its
signedness.  `wrap` is the reduction modulo `2 ^ w` into that range; every
fixed-width operation is the exact operation followed by `wrap`.  The bitwise
operations are read off `BitVec`, and the last section shows that they do not
depend on the width as long as both operands fit.
-/

namespace GccCil.Lib

/-- The representative of `x` modulo `2 ^ w`, unsigned or two's complement. -/
def wrap (unsigned : Bool) (w : Nat) (x : Int) : Int :=
  if unsigned then x % (2 ^ w : Nat) else Int.bmod x (2 ^ w)

/-- The values of a `w`-bit integer of the given signedness. -/
def InRange (unsigned : Bool) (w : Nat) (x : Int) : Prop :=
  if unsigned then 0 ≤ x ∧ x < (2 ^ w : Nat)
  else -(2 ^ w : Nat) ≤ 2 * x ∧ 2 * x < (2 ^ w : Nat)

instance (unsigned : Bool) (w : Nat) (x : Int) : Decidable (InRange unsigned w x) := by
  unfold InRange
  infer_instance

@[simp]
theorem wrap_unsigned (w : Nat) (x : Int) : wrap true w x = x % (2 ^ w : Nat) := rfl

@[simp]
theorem wrap_signed (w : Nat) (x : Int) : wrap false w x = Int.bmod x (2 ^ w) := rfl

theorem inRange_unsigned (w : Nat) (x : Int) :
    InRange true w x ↔ 0 ≤ x ∧ x < (2 ^ w : Nat) := by
  simp [InRange]

theorem inRange_signed (w : Nat) (x : Int) :
    InRange false w x ↔ -(2 ^ w : Nat) ≤ 2 * x ∧ 2 * x < (2 ^ w : Nat) := by
  simp [InRange]

theorem wrap_modEq (unsigned : Bool) (w : Nat) (x : Int) :
    wrap unsigned w x ≡ x [ZMOD (2 ^ w : Nat)] := by
  cases unsigned with
  | false => exact Int.bmod_emod
  | true => exact Int.mod_modEq x _

theorem wrap_inRange {w : Nat} (positive : 0 < w) (unsigned : Bool) (x : Int) :
    InRange unsigned w (wrap unsigned w x) := by
  have modulusPositive : 0 < 2 ^ w := Nat.two_pow_pos w
  cases unsigned with
  | true =>
    rw [inRange_unsigned, wrap_unsigned]
    exact ⟨Int.emod_nonneg _ (by omega), Int.emod_lt_of_pos _ (by omega)⟩
  | false =>
    rw [inRange_signed, wrap_signed]
    have lower := Int.le_bmod (x := x) modulusPositive
    have upper := Int.bmod_lt (x := x) modulusPositive
    have even : 2 ^ w = 2 * 2 ^ (w - 1) := by
      rw [← pow_succ', Nat.sub_add_cancel positive]
    omega

theorem wrap_eq_of_inRange {unsigned : Bool} {w : Nat} {x : Int}
    (fits : InRange unsigned w x) : wrap unsigned w x = x := by
  cases unsigned with
  | true =>
    rw [inRange_unsigned] at fits
    exact Int.emod_eq_of_lt fits.1 fits.2
  | false =>
    rw [inRange_signed] at fits
    exact Int.bmod_eq_of_le_mul_two (by omega) (by omega)

theorem wrap_eq_self_iff {w : Nat} (positive : 0 < w) (unsigned : Bool) (x : Int) :
    wrap unsigned w x = x ↔ InRange unsigned w x :=
  ⟨fun equality => equality ▸ wrap_inRange positive unsigned x, wrap_eq_of_inRange⟩

theorem wrap_congr {w : Nat} {x y : Int} (unsigned : Bool)
    (congruent : x ≡ y [ZMOD (2 ^ w : Nat)]) : wrap unsigned w x = wrap unsigned w y := by
  cases unsigned with
  | true => exact congruent
  | false =>
    rw [wrap_signed, wrap_signed, ← Int.emod_bmod x, ← Int.emod_bmod y, congruent]

theorem wrap_eq_wrap_iff {w : Nat} {x y : Int} (unsigned : Bool) :
    wrap unsigned w x = wrap unsigned w y ↔ x ≡ y [ZMOD (2 ^ w : Nat)] := by
  constructor
  · intro equality
    have left := wrap_modEq unsigned w x
    rw [equality] at left
    exact left.symm.trans (wrap_modEq unsigned w y)
  · exact wrap_congr unsigned

theorem eq_of_modEq_of_inRange {unsigned : Bool} {w : Nat} {x y : Int}
    (xFits : InRange unsigned w x) (yFits : InRange unsigned w y)
    (congruent : x ≡ y [ZMOD (2 ^ w : Nat)]) : x = y := by
  rw [← wrap_eq_of_inRange xFits, ← wrap_eq_of_inRange yFits]
  exact wrap_congr unsigned congruent

/-- A residue modulo a wider power of two is a residue modulo a narrower one. -/
theorem modEq_of_le {v w : Nat} {x y : Int} (narrower : v ≤ w)
    (congruent : x ≡ y [ZMOD (2 ^ w : Nat)]) : x ≡ y [ZMOD (2 ^ v : Nat)] :=
  congruent.of_dvd (by exact_mod_cast pow_dvd_pow 2 narrower)

/-- Wrapping to `w` bits first does not change the wrap to fewer bits. -/
theorem wrap_wrap_of_le {v w : Nat} (narrower : v ≤ w) (outer inner : Bool) (x : Int) :
    wrap outer v (wrap inner w x) = wrap outer v x :=
  wrap_congr outer (modEq_of_le narrower (wrap_modEq inner w x))

theorem inRange_signed_mono {v w : Nat} (narrower : v ≤ w) {x : Int}
    (fits : InRange false v x) : InRange false w x := by
  rw [inRange_signed] at fits ⊢
  have : 2 ^ v ≤ 2 ^ w := Nat.pow_le_pow_right (by omega) narrower
  omega

/-- A bitwise operation of width `w` on two's complement representatives. -/
def bitwise (operation : (w : Nat) → BitVec w → BitVec w → BitVec w)
    (w : Nat) (x y : Int) : Int :=
  (operation w (BitVec.ofInt w x) (BitVec.ofInt w y)).toInt

theorem ofInt_eq_signExtend {v w : Nat} (narrower : v ≤ w) {x : Int}
    (fits : InRange false v x) :
    BitVec.ofInt w x = (BitVec.ofInt v x).signExtend w := by
  apply BitVec.eq_of_toInt_eq
  rw [BitVec.toInt_signExtend_of_le narrower, BitVec.toInt_ofInt, BitVec.toInt_ofInt]
  exact (wrap_eq_of_inRange (inRange_signed_mono narrower fits)).trans
    (wrap_eq_of_inRange fits).symm

/-- An operation that commutes with sign extension gives the same integer at
every width that holds both operands. -/
theorem bitwise_eq_of_le {operation : (w : Nat) → BitVec w → BitVec w → BitVec w}
    {v w : Nat} (narrower : v ≤ w)
    (extends_ : ∀ a b : BitVec v,
      operation w (a.signExtend w) (b.signExtend w) = (operation v a b).signExtend w)
    {x y : Int} (xFits : InRange false v x) (yFits : InRange false v y) :
    bitwise operation v x y = bitwise operation w x y := by
  rw [bitwise, bitwise, ofInt_eq_signExtend narrower xFits,
    ofInt_eq_signExtend narrower yFits, extends_, BitVec.toInt_signExtend_of_le narrower]

theorem testBit_iff {w : Nat} (x : BitVec w) {k : Nat} (inside : k < w) :
    x &&& (1#w <<< k) ≠ 0#w ↔ x.getLsbD k = true := by
  have single : BitVec.twoPow w k ≠ 0#w := by
    intro zero
    have := congrArg (·.getLsbD k) zero
    simp [inside] at this
  rw [← BitVec.twoPow_eq, BitVec.and_twoPow]
  cases x.getLsbD k with
  | true => exact iff_of_true single rfl
  | false => exact iff_of_false (fun differs => differs rfl) Bool.false_ne_true

end GccCil.Lib
