import GccCil.Gcc.SrealWords

/-!
# The invariant of simple reals

The numbers are meant to be normalized before and after each call.  Additions
and subtractions keep that.  The other operations keep it where the exponent of
the result does not leave its range in a branch of `normalize` that has no check
for it.
-/

namespace GccCil.Gcc

/-- The operations of one variant of `sreal.c`, with the condition under which
each result is in range. -/
structure Arithmetic where
  Number : Type
  Normalized : Number → Prop
  zero : Number
  compare : Number → Number → Ordering
  init : Nat → Int → Option Number
  add : Number → Number → Option Number
  sub : Number → Number → Option Number
  mul : Number → Number → Option Number
  div : Number → Number → Option Number
  InitFits : Nat → Int → Prop
  MulFits : Number → Number → Prop
  DivFits : Number → Number → Prop

def oneWord (part : Nat) : Arithmetic where
  Number := Sreal
  Normalized := Sreal.Normalized part
  zero := ⟨0, -srealMaxExp⟩
  compare := Sreal.compare
  init := Sreal.init part
  add := Sreal.add part
  sub := Sreal.sub part
  mul := Sreal.mul part
  div := Sreal.div part
  InitFits := Sreal.InitFits part
  MulFits := Sreal.MulFits part
  DivFits := Sreal.DivFits part

def twoWords (part : Nat) : Arithmetic where
  Number := WideSreal
  Normalized := WideSreal.Normalized part
  zero := WideSreal.zero
  compare := WideSreal.compare
  init := WideSreal.init part
  add := WideSreal.add part
  sub := WideSreal.sub part
  mul := WideSreal.mul part
  div := WideSreal.div part
  InitFits := WideSreal.InitFits part
  MulFits := fun a b => Sreal.MulFits (2 * part) (a.toSreal part) (b.toSreal part)
  DivFits := WideSreal.DivFits part

def arithmetic (part : Nat) : Arithmetic := if part < 32 then twoWords part else oneWord part

namespace Arithmetic

def Normalizes (v : Arithmetic) (result : Option v.Number) : Prop :=
  ∃ number, result = some number ∧ v.Normalized number

inductive Computed (part : Nat) (v : Arithmetic) : v.Number → Prop
  | init {sig exp number} (word : sig < 2 ^ (2 * part)) (fits : v.InitFits sig exp)
      (result : v.init sig exp = some number) : Computed part v number
  | add {a b number} (first : Computed part v a) (second : Computed part v b)
      (result : v.add a b = some number) : Computed part v number
  | sub {a b number} (first : Computed part v a) (second : Computed part v b)
      (notLess : v.compare a b ≠ .lt) (result : v.sub a b = some number) : Computed part v number
  | mul {a b number} (first : Computed part v a) (second : Computed part v b)
      (fits : v.MulFits a b) (result : v.mul a b = some number) : Computed part v number
  | div {a b number} (first : Computed part v a) (second : Computed part v b)
      (nonzero : b ≠ v.zero) (fits : v.DivFits a b) (result : v.div a b = some number) :
      Computed part v number

structure KeepsNormalized (part : Nat) (v : Arithmetic) : Prop where
  init : ∀ sig exp, sig < 2 ^ (2 * part) → (v.Normalizes (v.init sig exp) ↔ v.InitFits sig exp)
  add : ∀ a b, v.Normalized a → v.Normalized b → v.Normalizes (v.add a b)
  sub : ∀ a b, v.Normalized a → v.Normalized b → v.compare a b ≠ .lt → v.Normalizes (v.sub a b)
  mul : ∀ a b, v.Normalized a → v.Normalized b → (v.Normalizes (v.mul a b) ↔ v.MulFits a b)
  div : ∀ a b, v.Normalized a → v.Normalized b → b ≠ v.zero →
    (v.Normalizes (v.div a b) ↔ v.DivFits a b)

theorem Normalizes.of_result {v : Arithmetic} {result : Option v.Number} {number : v.Number}
    (normalizes : v.Normalizes result) (isResult : result = some number) : v.Normalized number := by
  obtain ⟨other, isOther, normalized⟩ := normalizes
  rw [isResult, Option.some.injEq] at isOther
  rwa [isOther]

theorem KeepsNormalized.computed {part : Nat} {v : Arithmetic} (keeps : v.KeepsNormalized part)
    {number : v.Number} (computed : Computed part v number) : v.Normalized number := by
  induction computed with
  | init word fits result => exact ((keeps.init _ _ word).mpr fits).of_result result
  | add _ _ result first second => exact (keeps.add _ _ first second).of_result result
  | sub _ _ notLess result first second =>
    exact (keeps.sub _ _ first second notLess).of_result result
  | mul _ _ fits result first second =>
    exact ((keeps.mul _ _ first second).mpr fits).of_result result
  | div _ _ nonzero fits result first second =>
    exact ((keeps.div _ _ first second nonzero).mpr fits).of_result result

end Arithmetic

variable {part : Nat}

theorem Sreal.sig_ne_zero {x : Sreal} (normalized : x.Normalized part)
    (nonzero : x ≠ ⟨0, -srealMaxExp⟩) : x.sig ≠ 0 := by
  intro isZero
  obtain ⟨-, isLow⟩ | ⟨atLeast, -⟩ := normalized
  · obtain ⟨sig, exp⟩ := x
    exact nonzero (by rw [Sreal.mk.injEq]; exact ⟨isZero, isLow⟩)
  · have top : 0 < srealMinSig part := Nat.two_pow_pos _
    omega

theorem oneWord_keeps (wide : 4 ≤ part) (narrow : part ≤ 2 ^ 27) :
    (oneWord part).KeepsNormalized part where
  init := fun _ _ _ => Sreal.init_normalizes_iff (by omega)
  add := fun _ _ => Sreal.add_normalizes (by omega) (by omega)
  sub := fun _ _ => Sreal.sub_normalizes (by omega) (by omega)
  mul := fun _ _ => Sreal.mul_normalizes_iff wide (by omega)
  div := fun _ _ first second nonzero =>
    Sreal.div_normalizes_iff wide (by omega) first second (Sreal.sig_ne_zero second nonzero)

theorem twoWords_keeps (wide : 4 ≤ part) (even : 2 ∣ part) (narrow : part ≤ 2 ^ 27) :
    (twoWords part).KeepsNormalized part where
  init := fun _ _ => WideSreal.init_normalizes_iff (by omega)
  add := fun _ _ => WideSreal.add_normalizes (by omega) narrow
  sub := fun _ _ => WideSreal.sub_normalizes (by omega) narrow
  mul := fun _ _ => WideSreal.mul_normalizes_iff wide narrow
  div := fun _ _ => WideSreal.div_normalizes_iff wide even narrow

/-- Sums and differences are always normalized.  Initial values, products and
quotients are exactly where they fit, and so are all numbers computed from
initial values by operations that fit. -/
theorem arithmetic_normalizes (wide : 4 ≤ part) (even : 2 ∣ part) (narrow : part ≤ 2 ^ 27) :
    (arithmetic part).KeepsNormalized part ∧
      ∀ number, Arithmetic.Computed part (arithmetic part) number →
        (arithmetic part).Normalized number := by
  have keeps : (arithmetic part).KeepsNormalized part := by
    unfold arithmetic
    split
    · exact twoWords_keeps wide even narrow
    · exact oneWord_keeps wide narrow
  exact ⟨keeps, fun _ computed => keeps.computed computed⟩

/-- The variants for words of 64 and of 32 bits. -/
theorem arithmetic_normalizes_hosts :
    (arithmetic 32).KeepsNormalized 32 ∧ (arithmetic 16).KeepsNormalized 16 :=
  ⟨(arithmetic_normalizes (by decide) (by decide) (by decide)).1,
    (arithmetic_normalizes (by decide) (by decide) (by decide)).1⟩

/-- The square of the smallest number, the quotient of a large number by a small
one and a large initial value have exponents out of range. -/
theorem outOfRange_results :
    (Sreal.Normalized 32 ⟨2 ^ 31, -srealMaxExp⟩ ∧ Sreal.Normalized 32 ⟨2 ^ 31, srealMaxExp⟩ ∧
      Sreal.Normalized 32 ⟨2 ^ 32 - 1, -srealMaxExp⟩) ∧
    (Sreal.mul 32 ⟨2 ^ 31, -srealMaxExp⟩ ⟨2 ^ 31, -srealMaxExp⟩ = some ⟨2 ^ 31, -1073741791⟩ ∧
      Sreal.div 32 ⟨2 ^ 31, srealMaxExp⟩ ⟨2 ^ 32 - 1, -srealMaxExp⟩ =
        some ⟨2 ^ 31, 1073741790⟩ ∧
      Sreal.init 32 (2 ^ 31) intMax = some ⟨2 ^ 31, 2147483647⟩) ∧
    (¬Sreal.Normalized 32 ⟨2 ^ 31, -1073741791⟩ ∧ ¬Sreal.Normalized 32 ⟨2 ^ 31, 1073741790⟩ ∧
      ¬Sreal.Normalized 32 ⟨2 ^ 31, 2147483647⟩) := by
  decide +kernel

end GccCil.Gcc
