import GccCil.Gcc.Sreal
import Mathlib.Tactic.Ring

/-!
# Which results of `sreal.c` are normalized

`normalize` checks the exponent for underflow where it shifts left, for overflow
where it shifts right, and not at all where it does not shift.  Sums and
differences need no other check.  Products, quotients and initial values do.
-/

namespace GccCil.Gcc

section Loops

variable {part : Nat}

theorem log_double {sig : Nat} (positive : 0 < sig) : Nat.log 2 (sig * 2) = Nat.log 2 sig + 1 :=
  Nat.log_mul_base (by decide) positive.ne'

theorem log_lt_of_small {sig : Nat} (positive : 0 < sig) (small : sig < srealMinSig part) :
    Nat.log 2 sig < part - 1 :=
  Nat.log_lt_of_lt_pow positive.ne' small

theorem le_log_of_large {sig : Nat} (large : srealMaxSig part < sig) : part ≤ Nat.log 2 sig := by
  have atLeast : 2 ^ part ≤ sig := by
    unfold srealMaxSig at large
    omega
  exact Nat.le_log_of_pow_le (by decide) atLeast

theorem raise_eq (sig : Nat) (exp : Int) (shift : Nat) (positive : 0 < sig) :
    raise part ⟨sig, exp, shift⟩ =
      ⟨sig * 2 ^ (part - 1 - Nat.log 2 sig), exp - ((part - 1 - Nat.log 2 sig : Nat) : Int),
        shift + (part - 1 - Nat.log 2 sig)⟩ := by
  obtain ⟨gap, isGap⟩ : ∃ gap, part - 1 - Nat.log 2 sig = gap := ⟨_, rfl⟩
  induction gap generalizing sig exp shift with
  | zero =>
    have notSmall : ¬sig < srealMinSig part := by
      intro small
      have := log_lt_of_small positive small
      omega
    rw [raise, if_neg (fun both => notSmall both.2), isGap]
    simp
  | succ gap ih =>
    have small : sig < srealMinSig part := by
      apply Nat.lt_pow_of_log_lt (by decide)
      omega
    have doubled : part - 1 - Nat.log 2 (sig * 2) = gap := by
      rw [log_double positive]
      omega
    rw [raise, if_pos ⟨positive, small⟩, Nat.shiftLeft_eq, Nat.pow_one,
      ih (sig * 2) (exp - 1) (shift + 1) (by omega) doubled, doubled, isGap]
    congr 1
    · rw [Nat.pow_succ, Nat.mul_assoc, Nat.mul_comm 2]
    · push_cast
      ring
    · ring

theorem pow_le_of_log {sig k : Nat} (positive : 0 < k) (le : k ≤ Nat.log 2 sig) : 2 ^ k ≤ sig := by
  apply Nat.pow_le_of_le_log _ le
  rintro rfl
  rw [Nat.log_zero_right] at le
  omega

theorem lower_eq (wide : 0 < part) (sig : Nat) (exp : Int) (shift lastBit : Nat) :
    lower part ⟨sig, exp, shift⟩ lastBit =
      (⟨sig / 2 ^ (Nat.log 2 sig + 1 - part), exp + ((Nat.log 2 sig + 1 - part : Nat) : Int),
        shift + (Nat.log 2 sig + 1 - part)⟩,
        if Nat.log 2 sig + 1 - part = 0 then lastBit
        else sig / 2 ^ (Nat.log 2 sig - part) % 2) := by
  obtain ⟨excess, isExcess⟩ : ∃ excess, Nat.log 2 sig + 1 - part = excess := ⟨_, rfl⟩
  induction excess generalizing sig exp shift lastBit with
  | zero =>
    have notLarge : ¬srealMaxSig part < sig := by
      intro large
      have := le_log_of_large large
      omega
    rw [lower, if_neg notLarge, isExcess]
    simp
  | succ excess ih =>
    have atLeast := pow_le_of_log wide (show part ≤ Nat.log 2 sig by omega)
    have large : srealMaxSig part < sig := by
      unfold srealMaxSig
      have := Nat.two_pow_pos part
      omega
    have halved : Nat.log 2 (sig / 2) = Nat.log 2 sig - 1 := Nat.log_div_base 2 sig
    have less : Nat.log 2 (sig / 2) + 1 - part = excess := by omega
    rw [lower, if_pos large, Nat.shiftRight_one, Nat.and_one_is_mod,
      ih (sig / 2) (exp + 1) (shift + 1) (sig % 2) less, less, isExcess]
    congr 1
    · congr 1
      · rw [Nat.div_div_eq_div_mul, Nat.pow_succ, Nat.mul_comm]
      · push_cast
        ring
      · ring
    · rw [if_neg (Nat.succ_ne_zero excess)]
      have position : Nat.log 2 sig - part = excess := by omega
      rw [position]
      cases excess with
      | zero => simp
      | succ excess =>
        have below : Nat.log 2 (sig / 2) - part = excess := by omega
        rw [if_neg (Nat.succ_ne_zero excess), below, Nat.div_div_eq_div_mul, Nat.pow_succ,
          Nat.mul_comm]

end Loops

/-- The exponent of a number whose significand is shifted to `part` bits. -/
def leadingExp (part sig : Nat) (exp : Int) : Int := exp + Nat.log 2 sig + 1 - part

/-- Rounding the significand to `part` bits carries into another bit. -/
def RoundsUp (part sig : Nat) : Prop :=
  2 ^ (Nat.log 2 sig + 1) ≤ sig + 2 ^ (Nat.log 2 sig - part)

instance (part sig : Nat) : Decidable (RoundsUp part sig) :=
  inferInstanceAs (Decidable (_ ≤ _))

/-- The exponent of a number whose significand is rounded to `part` bits. -/
def roundedExp (part sig : Nat) (exp : Int) : Int :=
  leadingExp part sig exp + if RoundsUp part sig then 1 else 0

theorem roundedExp_of_log {part sig log : Nat} (exp : Int) (isLog : Nat.log 2 sig = log) :
    roundedExp part sig exp =
      exp + log + 1 - part + if 2 ^ (log + 1) ≤ sig + 2 ^ (log - part) then 1 else 0 := by
  subst isLog
  rfl

namespace Sreal

variable {part : Nat}

def Normalizes (part : Nat) (result : Option Sreal) : Prop :=
  ∃ number, result = some number ∧ number.Normalized part

theorem normalizes_some {number : Sreal} :
    Normalizes part (some number) ↔ number.Normalized part := by
  simp [Normalizes]

theorem not_normalizes_none : ¬Normalizes part none := by
  rintro ⟨number, absent, -⟩
  cases absent

theorem zero_normalized : Normalized part ⟨0, -srealMaxExp⟩ := Or.inl ⟨rfl, rfl⟩

theorem minSig_double (wide : 0 < part) : srealMinSig part * 2 = 2 ^ part := by
  unfold srealMinSig
  rw [← Nat.pow_succ]
  congr 1
  omega

theorem max_normalized (wide : 0 < part) : Normalized part ⟨srealMaxSig part, srealMaxExp⟩ := by
  refine Or.inr ⟨?_, Nat.le_refl _, show -srealMaxExp ≤ srealMaxExp by decide, Int.le_refl _⟩
  have double := minSig_double wide
  have positive : 0 < srealMinSig part := Nat.two_pow_pos _
  change srealMinSig part ≤ 2 ^ part - 1
  omega

theorem raised_range {sig : Nat} (wide : 0 < part) (positive : 0 < sig)
    (small : sig < srealMinSig part) :
    srealMinSig part ≤ sig * 2 ^ (part - 1 - Nat.log 2 sig) ∧
      sig * 2 ^ (part - 1 - Nat.log 2 sig) ≤ srealMaxSig part := by
  have low := log_lt_of_small positive small
  have top := Nat.mul_le_mul_right (2 ^ (part - 1 - Nat.log 2 sig))
    (Nat.pow_log_le_self 2 positive.ne')
  have next := Nat.mul_lt_mul_of_pos_right (Nat.lt_pow_succ_log_self (by decide : 1 < 2) sig)
    (Nat.two_pow_pos (part - 1 - Nat.log 2 sig))
  rw [← Nat.pow_add] at top next
  rw [show Nat.log 2 sig + (part - 1 - Nat.log 2 sig) = part - 1 by omega] at top
  rw [show (Nat.log 2 sig).succ + (part - 1 - Nat.log 2 sig) = part by omega] at next
  exact ⟨top, Nat.le_sub_one_of_lt next⟩

theorem normalize_small_iff {sig : Nat} {exp : Int} (wide : 0 < part) (positive : 0 < sig)
    (small : sig < srealMinSig part) :
    Normalizes part (normalize part ⟨sig, exp⟩) ↔
      intMin ≤ leadingExp part sig exp ∧ leadingExp part sig exp ≤ srealMaxExp := by
  have low := log_lt_of_small positive small
  obtain ⟨atLeast, atMost⟩ := raised_range wide positive small
  have raisedExp : exp - ((part - 1 - Nat.log 2 sig : Nat) : Int) = leadingExp part sig exp := by
    unfold leadingExp
    omega
  simp only [normalize, positive.ne', if_false, small, if_true, raise_eq sig exp 0 positive,
    raisedExp]
  split
  · rename_i overflows
    simp only [not_normalizes_none, false_iff]
    omega
  · rename_i fits
    split
    · rename_i underflows
      have bounded : leadingExp part sig exp ≤ srealMaxExp :=
        (Int.le_of_lt underflows).trans (by decide)
      simp only [normalizes_some, zero_normalized, true_iff]
      exact ⟨Int.not_lt.mp fits, bounded⟩
    · rename_i inRange
      rw [normalizes_some]
      constructor
      · rintro (⟨isZero, -⟩ | ⟨-, -, -, bounded⟩)
        · have top : 0 < srealMinSig part := Nat.two_pow_pos _
          dsimp only at isZero
          omega
        · exact ⟨Int.not_lt.mp fits, bounded⟩
      · rintro ⟨-, bounded⟩
        exact Or.inr ⟨atLeast, atMost, Int.not_lt.mp inRange, bounded⟩

theorem normalize_inRange_iff {sig : Nat} {exp : Int} (atLeast : srealMinSig part ≤ sig)
    (atMost : sig ≤ srealMaxSig part) :
    Normalizes part (normalize part ⟨sig, exp⟩) ↔ -srealMaxExp ≤ exp ∧ exp ≤ srealMaxExp := by
  have positive : 0 < sig := (Nat.two_pow_pos _).trans_le atLeast
  simp only [normalize, positive.ne', if_false, Nat.not_lt.mpr atLeast, Nat.not_lt.mpr atMost,
    normalizes_some]
  constructor
  · rintro (⟨isZero, -⟩ | ⟨-, -, bounds⟩)
    · exact absurd isZero positive.ne'
    · exact bounds
  · exact fun bounds => Or.inr ⟨atLeast, atMost, bounds⟩

theorem leading_bits {sig : Nat} (large : srealMaxSig part < sig) :
    2 ^ part ≤ sig / 2 ^ (Nat.log 2 sig - part) ∧
      sig / 2 ^ (Nat.log 2 sig - part) < 2 ^ (part + 1) := by
  have high := le_log_of_large large
  have positive : 0 < sig := Nat.zero_lt_of_lt large
  have lower := Nat.pow_log_le_self 2 positive.ne'
  have upper := Nat.lt_pow_succ_log_self (by decide : 1 < 2) sig
  constructor
  · rw [Nat.le_div_iff_mul_le (Nat.two_pow_pos _), ← Nat.pow_add,
      show part + (Nat.log 2 sig - part) = Nat.log 2 sig by omega]
    exact lower
  · rw [Nat.div_lt_iff_lt_mul (Nat.two_pow_pos _), ← Nat.pow_add,
      show part + 1 + (Nat.log 2 sig - part) = (Nat.log 2 sig).succ by omega]
    exact upper

theorem roundsUp_iff {sig : Nat} (large : srealMaxSig part < sig) :
    RoundsUp part sig ↔ 2 ^ (part + 1) ≤ sig / 2 ^ (Nat.log 2 sig - part) + 1 := by
  have high := le_log_of_large large
  have positive := Nat.two_pow_pos (Nat.log 2 sig - part)
  rw [RoundsUp, ← Nat.add_div_right sig positive, Nat.le_div_iff_mul_le positive, ← Nat.pow_add,
    show part + 1 + (Nat.log 2 sig - part) = Nat.log 2 sig + 1 by omega]

theorem round_lower {sig : Nat} (exp : Int) (wide : 0 < part) (large : srealMaxSig part < sig) :
    let lowered := lower part ⟨sig, exp, 0⟩ 0
    (round part lowered.1 lowered.2).exp = roundedExp part sig exp ∧
      srealMinSig part ≤ (round part lowered.1 lowered.2).sig ∧
      (round part lowered.1 lowered.2).sig ≤ srealMaxSig part := by
  have high := le_log_of_large large
  obtain ⟨bitsLow, bitsHigh⟩ := leading_bits large
  have carries := roundsUp_iff large
  have double := minSig_double wide
  have isMax : srealMaxSig part + 1 = 2 ^ part := Nat.sub_add_cancel (Nat.two_pow_pos part)
  have shifted : sig / 2 ^ (Nat.log 2 sig + 1 - part) =
      sig / 2 ^ (Nat.log 2 sig - part) / 2 := by
    rw [Nat.div_div_eq_div_mul, ← Nat.pow_succ,
      show (Nat.log 2 sig - part).succ = Nat.log 2 sig + 1 - part by omega]
  rw [lower_eq wide, if_neg (by omega)]
  simp only [shifted, round]
  generalize sig / 2 ^ (Nat.log 2 sig - part) = bits at *
  rw [Nat.pow_succ] at bitsHigh carries
  split
  · rename_i carried
    have roundsUp : RoundsUp part sig := carries.mpr (by omega)
    rw [Nat.shiftRight_one, roundedExp, if_pos roundsUp, leadingExp]
    dsimp only
    omega
  · rename_i kept
    have notUp : ¬RoundsUp part sig := by
      rw [carries]
      omega
    rw [roundedExp, if_neg notUp, leadingExp]
    dsimp only
    omega

theorem normalize_large_iff {sig : Nat} {exp : Int} (wide : 0 < part)
    (large : srealMaxSig part < sig) :
    Normalizes part (normalize part ⟨sig, exp⟩) ↔
      -srealMaxExp ≤ roundedExp part sig exp ∧ roundedExp part sig exp ≤ intMax := by
  have notSmall : ¬sig < srealMinSig part := by
    have double := minSig_double wide
    have isMax : srealMaxSig part + 1 = 2 ^ part := Nat.sub_add_cancel (Nat.two_pow_pos part)
    omega
  obtain ⟨isExp, atLeast, atMost⟩ := round_lower exp wide large
  simp only [normalize, (Nat.zero_lt_of_lt large).ne', if_false, notSmall, large, if_true, isExp]
  split
  · rename_i overflows
    simp only [not_normalizes_none, false_iff]
    omega
  · rename_i fits
    split
    · rename_i clamped
      simp only [normalizes_some, max_normalized wide, true_iff]
      exact ⟨(show -srealMaxExp ≤ srealMaxExp by decide).trans (Int.le_of_lt clamped),
        Int.not_lt.mp fits⟩
    · rename_i bounded
      rw [normalizes_some]
      constructor
      · rintro (⟨isZero, -⟩ | ⟨-, -, underflow, -⟩)
        · have top : 0 < srealMinSig part := Nat.two_pow_pos _
          omega
        · exact ⟨isExp ▸ underflow, Int.not_lt.mp fits⟩
      · rintro ⟨underflow, -⟩
        exact Or.inr ⟨atLeast, atMost, isExp.symm ▸ underflow, isExp.symm ▸ Int.not_lt.mp bounded⟩

/-- Where the exponent is in range and the significand less than twice too
large, `normalize` makes all the checks that are needed. -/
theorem normalize_of_bounded {sig : Nat} {exp : Int} (wide : 0 < part) (narrow : part ≤ 2 ^ 28)
    (bounded : sig < 2 ^ (part + 1)) (atLeast : -srealMaxExp ≤ exp) (atMost : exp ≤ srealMaxExp) :
    Normalizes part (normalize part ⟨sig, exp⟩) := by
  have isMaxExp : srealMaxExp = 536870911 := by decide
  have isIntMax : intMax = 2147483647 := by decide
  have isIntMin : intMin = -2147483648 := by decide
  obtain rfl | positive := Nat.eq_zero_or_pos sig
  · exact ⟨_, rfl, zero_normalized⟩
  · have log_le : Nat.log 2 sig ≤ part :=
      Nat.le_of_lt_succ (Nat.log_lt_of_lt_pow positive.ne' bounded)
    by_cases small : sig < srealMinSig part
    · have low := log_lt_of_small positive small
      rw [normalize_small_iff wide positive small, leadingExp]
      omega
    · by_cases large : srealMaxSig part < sig
      · have high := le_log_of_large large
        rw [normalize_large_iff wide large, roundedExp, leadingExp]
        split <;> omega
      · rw [normalize_inRange_iff (Nat.not_lt.mp small) (Nat.not_lt.mp large)]
        exact ⟨atLeast, atMost⟩

def NotLess (a b : Sreal) : Prop := b.exp < a.exp ∨ (b.exp = a.exp ∧ b.sig ≤ a.sig)

theorem notLess_of_compare {a b : Sreal} (notLess : compare a b ≠ .lt) : NotLess a b := by
  unfold compare at notLess
  unfold NotLess
  repeat' split at notLess
  all_goals first | contradiction | omega

theorem notLess_of_compare_lt {a b : Sreal} (less : compare a b = .lt) : NotLess b a := by
  unfold compare at less
  unfold NotLess
  repeat' split at less
  all_goals first | contradiction | omega

theorem Normalized.exp_range {x : Sreal} (normalized : Normalized part x) :
    -srealMaxExp ≤ x.exp ∧ x.exp ≤ srealMaxExp := by
  obtain ⟨-, isLow⟩ | ⟨-, -, range⟩ := normalized
  · rw [isLow]
    decide
  · exact range

theorem Normalized.sig_lt {x : Sreal} (normalized : Normalized part x) : x.sig < 2 ^ part := by
  have positive := Nat.two_pow_pos part
  obtain ⟨isZero, -⟩ | ⟨-, atMost, -⟩ := normalized
  · omega
  · unfold srealMaxSig at atMost
    omega

theorem shifted_sig_le {sig s : Nat} (wide : 0 < part) (bounded : sig < 2 ^ part) (some : 0 < s) :
    (sig + 1 <<< (s - 1)) >>> s ≤ srealMinSig part := by
  have double := minSig_double wide
  obtain ⟨t, rfl⟩ : ∃ t, s = t + 1 := ⟨s - 1, by omega⟩
  have positive := Nat.two_pow_pos t
  rw [Nat.add_sub_cancel, Nat.one_shiftLeft, Nat.shiftRight_eq_div_pow, Nat.pow_succ]
  apply Nat.le_of_lt_succ
  rw [Nat.div_lt_iff_lt_mul (by omega), Nat.succ_mul]
  have grows : srealMinSig part * 2 ≤ srealMinSig part * (2 ^ t * 2) :=
    Nat.mul_le_mul_left _ (by omega)
  omega

theorem aligned {a b : Sreal} (wide : 0 < part) (aNormalized : Normalized part a)
    (bNormalized : Normalized part b) (notLess : NotLess a b)
    (near : ¬(a.exp - b.exp).toNat > part) :
    ∃ bb, align part b (a.exp - b.exp).toNat = some bb ∧ bb.sig ≤ a.sig := by
  unfold align
  split
  · rename_i same
    refine ⟨b, rfl, ?_⟩
    unfold NotLess at notLess
    omega
  · rename_i apart
    have bounds := aNormalized.exp_range
    have fits : b.exp + ((a.exp - b.exp).toNat : Int) ≤ srealMaxExp := by omega
    rw [shiftRight, if_pos ⟨by omega, by omega, fits⟩]
    refine ⟨_, rfl, (shifted_sig_le wide bNormalized.sig_lt (by omega)).trans ?_⟩
    obtain ⟨-, isLow⟩ | ⟨atLeast, -⟩ := aNormalized
    · have := bNormalized.exp_range.1
      omega
    · exact atLeast

theorem combineAligned_normalizes {combine : Nat → Nat → Nat} {a b : Sreal} (wide : 0 < part)
    (narrow : part ≤ 2 ^ 28) (aNormalized : Normalized part a) (bNormalized : Normalized part b)
    (notLess : NotLess a b)
    (bounded : ∀ x, x ≤ a.sig → combine a.sig x < 2 ^ (part + 1)) :
    Normalizes part (combineAligned part combine a b) := by
  unfold combineAligned
  by_cases far : (a.exp - b.exp).toNat > part
  · rw [if_pos far]
    exact ⟨_, rfl, aNormalized⟩
  · obtain ⟨bb, isAligned, atMost⟩ := aligned wide aNormalized bNormalized notLess far
    rw [if_neg far, isAligned, Option.bind_some]
    obtain ⟨low, high⟩ := aNormalized.exp_range
    exact normalize_of_bounded wide narrow (bounded bb.sig atMost) low high

theorem add_normalizes {a b : Sreal} (wide : 0 < part) (narrow : part ≤ 2 ^ 28)
    (aNormalized : Normalized part a) (bNormalized : Normalized part b) :
    Normalizes part (add part a b) := by
  have bounded : ∀ sig, sig < 2 ^ part → ∀ x, x ≤ sig →
      (sig + x) % 2 ^ (2 * part) < 2 ^ (part + 1) := by
    intro sig sigLt x xLe
    apply (Nat.mod_le _ _).trans_lt
    rw [Nat.pow_succ]
    omega
  unfold add
  split
  · rename_i less
    exact combineAligned_normalizes wide narrow bNormalized aNormalized
      (notLess_of_compare_lt less) (bounded b.sig bNormalized.sig_lt)
  · rename_i notLess
    exact combineAligned_normalizes wide narrow aNormalized bNormalized
      (notLess_of_compare notLess) (bounded a.sig aNormalized.sig_lt)

theorem sub_normalizes {a b : Sreal} (wide : 0 < part) (narrow : part ≤ 2 ^ 28)
    (aNormalized : Normalized part a) (bNormalized : Normalized part b)
    (notLess : compare a b ≠ .lt) : Normalizes part (sub part a b) := by
  rw [sub, if_neg notLess]
  apply combineAligned_normalizes wide narrow aNormalized bNormalized
    (notLess_of_compare notLess)
  intro x xLe
  have sigLt := aNormalized.sig_lt
  have word : 2 ^ part ≤ 2 ^ (2 * part) := Nat.pow_le_pow_right (by decide) (by omega)
  have difference : a.sig + (2 ^ (2 * part) - x) = a.sig - x + 2 ^ (2 * part) := by omega
  rw [difference, Nat.add_mod_right, Nat.mod_eq_of_lt (by omega), Nat.pow_succ]
  omega

/-- The product is zero, or at least the smallest number in range, up to a
rounding. -/
def MulFits (part : Nat) (a b : Sreal) : Prop :=
  a.sig = 0 ∨ b.sig = 0 ∨ -srealMaxExp < a.exp + b.exp + part ∨
    (a.exp + b.exp + part = -srealMaxExp ∧
      2 ^ (2 * part - 1) ≤ a.sig * b.sig + 2 ^ (part - 2))

/-- The quotient is zero or in range.  A quotient with a carry is checked for
overflow by `normalize`, another one is not. -/
def DivFits (part : Nat) (a b : Sreal) : Prop :=
  a.sig = 0 ∨
    (a.sig < b.sig ∧ -srealMaxExp ≤ a.exp - b.exp - part ∧ a.exp - b.exp - part ≤ srealMaxExp) ∨
    (b.sig ≤ a.sig ∧ -srealMaxExp ≤ a.exp - b.exp - part + 1)

/-- The exponent of an initial value.  A small significand is checked for
underflow, a large one for overflow. -/
def InitFits (part sig : Nat) (exp : Int) : Prop :=
  sig = 0 ∨
    (sig < srealMinSig part ∧ intMin ≤ leadingExp part sig exp ∧
      leadingExp part sig exp ≤ srealMaxExp) ∨
    (srealMinSig part ≤ sig ∧ sig ≤ srealMaxSig part ∧ -srealMaxExp ≤ exp ∧ exp ≤ srealMaxExp) ∨
    (srealMaxSig part < sig ∧ -srealMaxExp ≤ roundedExp part sig exp ∧
      roundedExp part sig exp ≤ intMax)

theorem init_normalizes_iff {sig : Nat} {exp : Int} (wide : 0 < part) :
    Normalizes part (init part sig exp) ↔ InitFits part sig exp := by
  have double := minSig_double wide
  have isMax : srealMaxSig part + 1 = 2 ^ part := Nat.sub_add_cancel (Nat.two_pow_pos part)
  have top : 0 < srealMinSig part := Nat.two_pow_pos _
  unfold init InitFits
  obtain rfl | positive := Nat.eq_zero_or_pos sig
  · simp only [true_or, iff_true]
    exact ⟨_, rfl, zero_normalized⟩
  · by_cases small : sig < srealMinSig part
    · rw [normalize_small_iff wide positive small]
      omega
    · by_cases large : srealMaxSig part < sig
      · rw [normalize_large_iff wide large]
        omega
      · rw [normalize_inRange_iff (Nat.not_lt.mp small) (Nat.not_lt.mp large)]
        omega

theorem sig_eq_zero_of_small {x : Sreal} (normalized : Normalized part x)
    (small : x.sig < srealMinSig part) : x.sig = 0 := by
  obtain ⟨isZero, -⟩ | ⟨atLeast, -⟩ := normalized
  · exact isZero
  · omega

theorem minSig_le_of_ne_zero {x : Sreal} (normalized : Normalized part x) (nonzero : x.sig ≠ 0) :
    srealMinSig part ≤ x.sig := by
  by_contra small
  exact nonzero (sig_eq_zero_of_small normalized (Nat.not_le.mp small))

theorem product_range {x y : Nat} (wide : 0 < part) (xLow : srealMinSig part ≤ x)
    (xHigh : x < 2 ^ part) (yLow : srealMinSig part ≤ y) (yHigh : y < 2 ^ part) :
    2 ^ (2 * part - 2) ≤ x * y ∧ x * y + 2 ^ (part + 1) ≤ 2 ^ (2 * part) + 1 := by
  constructor
  · have low := Nat.mul_le_mul xLow yLow
    unfold srealMinSig at low
    rwa [← Nat.pow_add, show part - 1 + (part - 1) = 2 * part - 2 by omega] at low
  · obtain ⟨top, isTop⟩ : ∃ top, 2 ^ part = top + 1 :=
      ⟨2 ^ part - 1, (Nat.sub_add_cancel (Nat.two_pow_pos part)).symm⟩
    have high : x * y ≤ top * top := Nat.mul_le_mul (by omega) (by omega)
    have square : 2 ^ (2 * part) = (top + 1) * (top + 1) := by
      rw [Nat.two_mul, Nat.pow_add, isTop]
    rw [square, Nat.pow_succ, isTop]
    calc x * y + (top + 1) * 2 ≤ top * top + (top + 1) * 2 := Nat.add_le_add_right high _
      _ = (top + 1) * (top + 1) + 1 := by ring

theorem product_roundedExp {product : Nat} (exp : Int) (wide : 4 ≤ part)
    (low : 2 ^ (2 * part - 2) ≤ product) (high : product + 2 ^ (part + 1) ≤ 2 ^ (2 * part) + 1) :
    srealMaxSig part < product ∧
      roundedExp part product exp =
        if 2 ^ (2 * part - 1) ≤ product + 2 ^ (part - 2) then exp + part else exp + part - 1 := by
  have quarter := Nat.two_pow_pos (part - 2)
  have isPart : 2 ^ part = 4 * 2 ^ (part - 2) := by
    rw [show (4 : Nat) = 2 ^ 2 by decide, ← Nat.pow_add]
    congr 1
    omega
  have isHalf : 2 ^ (2 * part - 1) = 2 * 2 ^ (2 * part - 2) := by
    rw [← Nat.pow_succ']
    congr 1
    omega
  have isWord : 2 ^ (2 * part) = 4 * 2 ^ (2 * part - 2) := by
    rw [show (4 : Nat) = 2 ^ 2 by decide, ← Nat.pow_add]
    congr 1
    omega
  have isBelow : 2 ^ (part - 1) = 2 * 2 ^ (part - 2) := by
    rw [← Nat.pow_succ']
    congr 1
    omega
  have grows : 2 ^ part ≤ 2 ^ (2 * part - 2) := Nat.pow_le_pow_right (by decide) (by omega)
  refine ⟨by unfold srealMaxSig; omega, ?_⟩
  rw [Nat.pow_succ] at high
  by_cases long : 2 ^ (2 * part - 1) ≤ product
  · have isLog : Nat.log 2 product = 2 * part - 1 := by
      apply Nat.log_eq_of_pow_le_of_lt_pow long
      rw [show 2 * part - 1 + 1 = 2 * part by omega]
      omega
    rw [roundedExp_of_log exp isLog, show 2 * part - 1 + 1 = 2 * part by omega,
      show 2 * part - 1 - part = part - 1 by omega, if_neg (by omega), if_pos (by omega)]
    omega
  · have isLog : Nat.log 2 product = 2 * part - 2 := by
      apply Nat.log_eq_of_pow_le_of_lt_pow low
      rw [show 2 * part - 2 + 1 = 2 * part - 1 by omega]
      omega
    rw [roundedExp_of_log exp isLog, show 2 * part - 2 + 1 = 2 * part - 1 by omega,
      show 2 * part - 2 - part = part - 2 by omega]
    split <;> omega

theorem mul_normalizes_iff {a b : Sreal} (wide : 4 ≤ part) (narrow : part ≤ 2 ^ 28)
    (aNormalized : Normalized part a) (bNormalized : Normalized part b) :
    Normalizes part (mul part a b) ↔ MulFits part a b := by
  have isMaxExp : srealMaxExp = 536870911 := by decide
  have isIntMax : intMax = 2147483647 := by decide
  unfold mul MulFits
  split
  · rename_i small
    have isZero : a.sig = 0 ∨ b.sig = 0 := small.imp
      (sig_eq_zero_of_small aNormalized) (sig_eq_zero_of_small bNormalized)
    exact iff_of_true ⟨_, rfl, zero_normalized⟩ (by omega)
  · rename_i notSmall
    simp only [not_or, Nat.not_lt] at notSmall
    obtain ⟨aLow, bLow⟩ := notSmall
    have top : 0 < srealMinSig part := Nat.two_pow_pos _
    obtain ⟨low, high⟩ := product_range (by omega) aLow aNormalized.sig_lt bLow bNormalized.sig_lt
    obtain ⟨aExpLow, aExpHigh⟩ := aNormalized.exp_range
    obtain ⟨bExpLow, bExpHigh⟩ := bNormalized.exp_range
    obtain ⟨large, isExp⟩ := product_roundedExp (a.exp + b.exp) wide low high
    have noWrap : a.sig * b.sig < 2 ^ (2 * part) := by
      have more : 2 ^ 1 ≤ 2 ^ (part + 1) := Nat.pow_le_pow_right (by decide) (by omega)
      omega
    rw [Nat.mod_eq_of_lt noWrap, normalize_large_iff (by omega) large, isExp]
    split <;> omega

theorem quotient_range {x y : Nat} (wide : 0 < part) (xLow : srealMinSig part ≤ x)
    (xHigh : x < 2 ^ part) (yLow : srealMinSig part ≤ y) (yHigh : y < 2 ^ part) :
    srealMinSig part ≤ x * 2 ^ part / y ∧ x * 2 ^ part / y + 1 < 2 ^ (part + 1) ∧
      (x * 2 ^ part / y ≤ srealMaxSig part ↔ x < y) := by
  have double := minSig_double wide
  have top : 0 < srealMinSig part := Nat.two_pow_pos _
  have positive : 0 < y := by omega
  refine ⟨?_, ?_, ?_⟩
  · rw [Nat.le_div_iff_mul_le positive]
    exact Nat.mul_le_mul xLow (by omega)
  · have bound : x * 2 ^ part / y < 2 ^ (part + 1) - 1 := by
      rw [Nat.div_lt_iff_lt_mul positive, Nat.pow_succ, ← double]
      obtain ⟨t, isTop⟩ : ∃ t, srealMinSig part = t + 1 := ⟨srealMinSig part - 1, by omega⟩
      rw [← double, isTop] at xHigh
      rw [isTop] at yLow ⊢
      calc x * ((t + 1) * 2) ≤ (2 * t + 1) * ((t + 1) * 2) := Nat.mul_le_mul_right _ (by omega)
        _ < (4 * t + 3) * (t + 1) := by
          ring_nf
          omega
        _ = ((t + 1) * 2 * 2 - 1) * (t + 1) := by
          congr 1
          omega
        _ ≤ ((t + 1) * 2 * 2 - 1) * y := Nat.mul_le_mul_left _ yLow
    omega
  · unfold srealMaxSig
    rw [← Nat.lt_iff_le_pred (Nat.two_pow_pos part), Nat.div_lt_iff_lt_mul positive,
      Nat.mul_comm x]
    exact Nat.mul_lt_mul_left (Nat.two_pow_pos part)

theorem div_normalizes_iff {a b : Sreal} (wide : 4 ≤ part) (narrow : part ≤ 2 ^ 28)
    (aNormalized : Normalized part a) (bNormalized : Normalized part b) (nonzero : b.sig ≠ 0) :
    Normalizes part (div part a b) ↔ DivFits part a b := by
  have isMaxExp : srealMaxExp = 536870911 := by decide
  have isIntMax : intMax = 2147483647 := by decide
  unfold div DivFits
  rw [if_neg nonzero, Nat.shiftLeft_eq]
  obtain isZero | positive := Nat.eq_zero_or_pos a.sig
  · rw [isZero, Nat.zero_mul, Nat.zero_mod, Nat.zero_div]
    exact iff_of_true ⟨_, rfl, zero_normalized⟩ (Or.inl rfl)
  · have aLow := minSig_le_of_ne_zero aNormalized positive.ne'
    have bLow := minSig_le_of_ne_zero bNormalized nonzero
    have noWrap : a.sig * 2 ^ part < 2 ^ (2 * part) := by
      rw [Nat.two_mul, Nat.pow_add]
      exact Nat.mul_lt_mul_of_pos_right aNormalized.sig_lt (Nat.two_pow_pos part)
    obtain ⟨low, high, fits⟩ := quotient_range (by omega) aLow aNormalized.sig_lt bLow
      bNormalized.sig_lt
    obtain ⟨aExpLow, aExpHigh⟩ := aNormalized.exp_range
    obtain ⟨bExpLow, bExpHigh⟩ := bNormalized.exp_range
    rw [Nat.mod_eq_of_lt noWrap]
    generalize a.sig * 2 ^ part / b.sig = quotient at *
    by_cases large : srealMaxSig part < quotient
    · have isLog : Nat.log 2 quotient = part := by
        apply Nat.log_eq_of_pow_le_of_lt_pow
        · unfold srealMaxSig at large
          omega
        · omega
      rw [normalize_large_iff (by omega) large, roundedExp_of_log _ isLog, Nat.sub_self,
        if_neg (by omega)]
      omega
    · rw [normalize_inRange_iff low (Nat.not_lt.mp large)]
      omega

end Sreal

end GccCil.Gcc
