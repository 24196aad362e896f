import Mathlib.FieldTheory.Finite.Basic
import Mathlib.NumberTheory.Multiplicity
import Mathlib.Tactic.Ring

/-!
# Inverses modulo powers of two

Newton's iteration doubles the number of right bits of an inverse, and the
exponent of the group of units gives the inverse as a power.
-/

namespace GccCil.Lib.ModularInverse

theorem self_inverse {x : ℤ} (odd : Odd x) : 2 ^ 3 ∣ x * x - 1 := by
  rw [← sq]
  exact Int.eight_dvd_sq_sub_one_of_odd odd

theorem newton {x y m : ℤ} (inverse : m ∣ x * y - 1) : m ^ 2 ∣ x * (y * (2 - x * y)) - 1 := by
  have squared : x * (y * (2 - x * y)) - 1 = -(x * y - 1) ^ 2 := by ring
  rw [squared, dvd_neg]
  exact pow_dvd_pow_of_dvd inverse 2

theorem pow_two_pow_eq_one {x : Nat} (odd : Odd x) (s : Nat) :
    (x : ZMod (2 ^ (s + 1))) ^ 2 ^ s = 1 := by
  have power := Nat.ModEq.pow_totient (Nat.Coprime.pow_right (s + 1) odd.coprime_two_right)
  rw [Nat.totient_prime_pow_succ Nat.prime_two, Nat.mul_one] at power
  have cast := (ZMod.natCast_eq_natCast_iff _ _ _).mpr power
  rwa [Nat.cast_pow, Nat.cast_one] at cast

/-- The product of the powers with the exponents `1, 2, 4, ...`, by repeated squaring. -/
def powers {α : Type*} (mul : α → α → α) : Nat → α → α → α
  | 0, result, _ => result
  | ctr + 1, result, x => powers mul ctr (mul result x) (mul x x)

theorem powers_value {α M : Type*} [CommMonoid M] {mul : α → α → α} {member : α → Prop}
    {value : α → M} (closed : ∀ x y, member x → member y → member (mul x y))
    (product : ∀ x y, member x → member y → value (mul x y) = value x * value y) (ctr : Nat)
    {result x : α} (first : member result) (factor : member x) :
    member (powers mul ctr result x) ∧
      value (powers mul ctr result x) = value result * value x ^ (2 ^ ctr - 1) := by
  induction ctr generalizing result x with
  | zero => exact ⟨first, by rw [pow_zero, Nat.sub_self, pow_zero, mul_one]; rfl⟩
  | succ ctr ih =>
    obtain ⟨kept, power⟩ := ih (closed result x first factor)
      (closed x x factor factor)
    refine ⟨kept, power.trans ?_⟩
    have exponent : 2 ^ (ctr + 1) - 1 = 1 + 2 * (2 ^ ctr - 1) := by
      have := Nat.two_pow_pos ctr
      rw [pow_succ]
      omega
    rw [product result x first factor, product x x factor factor, exponent, pow_add, pow_one,
      pow_mul, sq, mul_assoc]

end GccCil.Lib.ModularInverse
