import GccCil.Gcc.SrealNormalization

/-!
# Significands of two words

The two words of a significand are one significand of twice the width.  The
operations on them do what the operations on one word of that width do, except
for the division, whose divisor is rounded.
-/

namespace GccCil.Gcc.WideSreal

variable {part : Nat}

def toSreal (part : Nat) (x : WideSreal) : Sreal := ⟨x.sigHi * 2 ^ part + x.sigLo, x.exp⟩

theorem and_top_bit {x : Nat} (bounded : x < 2 ^ (part + 1)) :
    x &&& 1 <<< part ≠ 0 ↔ 2 ^ part ≤ x := by
  rw [Nat.one_shiftLeft, Nat.and_two_pow, Nat.testBit_eq_decide_div_mod_eq]
  have positive := Nat.two_pow_pos part
  rw [Nat.pow_succ] at bounded
  by_cases atLeast : 2 ^ part ≤ x
  · have quotient : x / 2 ^ part = 1 := by
      apply Nat.div_eq_of_lt_le <;> omega
    simp [quotient, atLeast]
  · simp [Nat.div_eq_of_lt (Nat.not_le.mp atLeast), atLeast]

theorem carry_spec {x : WideSreal} (bounded : x.sigLo < 2 ^ (part + 1)) :
    (carry part x).toSreal part = x.toSreal part ∧ (carry part x).sigLo < 2 ^ part ∧
      (carry part x).sigHi ≤ x.sigHi + 1 := by
  unfold carry toSreal
  rw [Nat.pow_succ] at bounded
  split
  · rename_i above
    have atLeast := (and_top_bit (by rw [Nat.pow_succ]; exact bounded)).mp above
    simp only [Nat.one_shiftLeft, Sreal.mk.injEq, and_true, Nat.add_mul]
    omega
  · rename_i below
    have notAbove : ¬2 ^ part ≤ x.sigLo := fun atLeast =>
      below ((and_top_bit (by rw [Nat.pow_succ]; exact bounded)).mpr atLeast)
    exact ⟨rfl, by omega, Nat.le_succ _⟩

theorem pow_split {s : Nat} (le : s ≤ part) : 2 ^ part = 2 ^ (part - s) * 2 ^ s := by
  rw [← Nat.pow_add]
  congr 1
  omega

theorem shifted_words {s : Nat} (hi lo : Nat) (le : s ≤ part) :
    hi / 2 ^ s * 2 ^ part + (lo / 2 ^ s + hi % 2 ^ s * 2 ^ (part - s)) =
      (hi * 2 ^ part + lo) / 2 ^ s := by
  have split := pow_split le
  have whole : hi * 2 ^ part + lo = lo + 2 ^ s * (hi * 2 ^ (part - s)) := by
    rw [split]
    ring
  rw [whole, Nat.add_mul_div_left _ _ (Nat.two_pow_pos s)]
  calc hi / 2 ^ s * 2 ^ part + (lo / 2 ^ s + hi % 2 ^ s * 2 ^ (part - s))
      = lo / 2 ^ s + (2 ^ s * (hi / 2 ^ s) + hi % 2 ^ s) * 2 ^ (part - s) := by
        rw [split]
        ring
    _ = lo / 2 ^ s + hi * 2 ^ (part - s) := by rw [Nat.div_add_mod]

theorem shifted_quotient {lo s : Nat} (bounded : lo < 2 ^ part) (le : s ≤ part) :
    lo / 2 ^ s < 2 ^ (part - s) := by
  rw [Nat.div_lt_iff_lt_mul (Nat.two_pow_pos s), ← pow_split le]
  exact bounded

theorem shifted_low_lt {lo s : Nat} (hi : Nat) (bounded : lo < 2 ^ (part - s)) (le : s ≤ part) :
    lo + hi % 2 ^ s * 2 ^ (part - s) < 2 ^ part := by
  have remainder : hi % 2 ^ s + 1 ≤ 2 ^ s := Nat.mod_lt _ (Nat.two_pow_pos s)
  calc lo + hi % 2 ^ s * 2 ^ (part - s)
      < 2 ^ (part - s) + hi % 2 ^ s * 2 ^ (part - s) := Nat.add_lt_add_right bounded _
    _ = (hi % 2 ^ s + 1) * 2 ^ (part - s) := by ring
    _ ≤ 2 ^ s * 2 ^ (part - s) := Nat.mul_le_mul_right _ remainder
    _ = 2 ^ part := by rw [pow_split le, Nat.mul_comm]

theorem or_moved_bits {lo s : Nat} (hi : Nat) (bounded : lo < 2 ^ part) (le : s ≤ part) :
    lo >>> s ||| (hi &&& (1 <<< s - 1)) <<< (part - s) =
      lo / 2 ^ s + hi % 2 ^ s * 2 ^ (part - s) := by
  rw [Nat.one_shiftLeft, Nat.and_two_pow_sub_one_eq_mod, Nat.shiftRight_eq_div_pow, Nat.or_comm,
    ← Nat.shiftLeft_add_eq_or_of_lt (shifted_quotient bounded le), Nat.shiftLeft_eq, Nat.add_comm]

def Same (part : Nat) (wide : Option WideSreal) (one : Option Sreal) : Prop :=
  wide.map (toSreal part) = one ∧ ∀ number, wide = some number → number.sigLo < 2 ^ part

theorem same_some {x : WideSreal} {y : Sreal} (sig : x.sigHi * 2 ^ part + x.sigLo = y.sig)
    (exp : x.exp = y.exp) (bounded : x.sigLo < 2 ^ part) : Same part (some x) (some y) := by
  refine ⟨?_, ?_⟩
  · rw [Option.map_some, toSreal, sig, exp]
  · rintro number ⟨⟩
    exact bounded

theorem same_none : Same part none none := ⟨rfl, nofun⟩

theorem shifted_far {hi lo s : Nat} (bounded : lo < 2 ^ part) (far : part < s) :
    (hi * 2 ^ part + lo + 1 <<< (s - 1)) >>> s =
      (hi + 1 <<< (s - part - 1)) >>> (s - part) := by
  obtain ⟨t, rfl⟩ : ∃ t, s = part + t + 1 := ⟨s - part - 1, by omega⟩
  have positive := Nat.two_pow_pos part
  rw [show part + t + 1 - 1 = t + part by omega, show part + t + 1 - part - 1 = t by omega,
    show part + t + 1 - part = t + 1 by omega, show part + t + 1 = part + (t + 1) by omega]
  rw [Nat.one_shiftLeft, Nat.one_shiftLeft, Nat.shiftRight_eq_div_pow, Nat.shiftRight_eq_div_pow,
    Nat.pow_add 2 part, ← Nat.div_div_eq_div_mul]
  congr 1
  have whole : hi * 2 ^ part + lo + 2 ^ (t + part) = lo + 2 ^ part * (hi + 2 ^ t) := by
    ring
  rw [whole, Nat.add_mul_div_left _ _ positive, Nat.div_eq_of_lt bounded, Nat.zero_add]

theorem shiftRight_same {x : WideSreal} {s : Nat} (wide : 0 < part)
    (hiBounded : x.sigHi < 2 ^ part) (bounded : x.sigLo < 2 ^ part) :
    Same part (shiftRight part x s) (Sreal.shiftRight (2 * part) (x.toSreal part) s) := by
  unfold shiftRight Sreal.shiftRight
  by_cases valid : 0 < s ∧ s ≤ 2 * part ∧ x.exp + s ≤ srealMaxExp
  · have validOne : 0 < s ∧ s ≤ 2 * part ∧ (x.toSreal part).exp + s ≤ srealMaxExp := valid
    rw [if_pos valid, if_pos validOne]
    split
    · rename_i far
      refine same_some ?_ rfl ?_
      · rw [toSreal, shifted_far bounded far, Nat.zero_mul, Nat.zero_add]
      · have double := Sreal.minSig_double wide
        have small := Sreal.shifted_sig_le wide hiBounded (show 0 < s - part by omega)
        have positive : 0 < srealMinSig part := Nat.two_pow_pos _
        dsimp only
        omega
    · rename_i near
      have half : 2 ^ (s - 1) < 2 ^ part := Nat.pow_lt_pow_right (by decide) (by omega)
      have sumBounded : x.sigLo + 1 <<< (s - 1) < 2 ^ (part + 1) := by
        rw [Nat.one_shiftLeft, Nat.pow_succ]
        omega
      obtain ⟨same, carried, -⟩ :=
        carry_spec (x := { x with sigLo := x.sigLo + 1 <<< (s - 1) }) sumBounded
      simp only [toSreal, Sreal.mk.injEq] at same
      have le := Nat.not_lt.mp near
      refine same_some ?_ rfl ?_
      · dsimp only [toSreal]
        rw [or_moved_bits _ carried le, Nat.shiftRight_eq_div_pow, shifted_words _ _ le,
          Nat.shiftRight_eq_div_pow, same.1, Nat.add_assoc]
      · dsimp only
        rw [or_moved_bits _ carried le]
        exact shifted_low_lt _ (shifted_quotient carried le) le
  · have invalidOne : ¬(0 < s ∧ s ≤ 2 * part ∧ (x.toSreal part).exp + s ≤ srealMaxExp) := valid
    rw [if_neg valid, if_neg invalidOne]
    exact same_none

theorem log_words {hi lo : Nat} (positive : 0 < hi) (bounded : lo < 2 ^ part) :
    Nat.log 2 (hi * 2 ^ part + lo) = Nat.log 2 hi + part := by
  have low := Nat.mul_le_mul_right (2 ^ part) (Nat.pow_log_le_self 2 positive.ne')
  have high := Nat.mul_le_mul_right (2 ^ part)
    (Nat.succ_le_of_lt (Nat.lt_pow_succ_log_self (by decide : 1 < 2) hi))
  rw [← Nat.pow_add] at low high
  apply Nat.log_eq_of_pow_le_of_lt_pow
  · omega
  · rw [show Nat.log 2 hi + part + 1 = (Nat.log 2 hi).succ + part by omega]
    rw [Nat.succ_mul] at high
    omega

theorem minSig_words (wide : 0 < part) : srealMinSig (2 * part) = srealMinSig part * 2 ^ part := by
  unfold srealMinSig
  rw [← Nat.pow_add]
  congr 1
  omega

theorem maxSig_words : srealMaxSig (2 * part) = srealMaxSig part * 2 ^ part + srealMaxSig part := by
  unfold srealMaxSig
  obtain ⟨top, isTop⟩ : ∃ top, 2 ^ part = top + 1 :=
    ⟨2 ^ part - 1, (Nat.sub_add_cancel (Nat.two_pow_pos part)).symm⟩
  rw [Nat.two_mul, Nat.pow_add, isTop, Nat.add_sub_cancel, Nat.add_mul, Nat.one_mul,
    ← Nat.add_assoc, Nat.add_sub_cancel]

theorem raised_words {lo s : Nat} (hi : Nat) (bounded : lo < 2 ^ part) (le : s ≤ part) :
    (hi * 2 ^ s ||| (lo &&& (1 <<< part - 1 <<< (part - s))) >>> (part - s)) * 2 ^ part +
        (lo <<< s &&& (1 <<< part - 1)) = (hi * 2 ^ part + lo) * 2 ^ s := by
  have split := pow_split le
  have mask : 1 <<< part - 1 <<< (part - s) = (2 ^ s - 1) * 2 ^ (part - s) := by
    rw [Nat.one_shiftLeft, Nat.one_shiftLeft, Nat.sub_mul, Nat.one_mul, split, Nat.mul_comm]
  have moved : (lo &&& (1 <<< part - 1 <<< (part - s))) >>> (part - s) =
      lo / 2 ^ (part - s) % 2 ^ s := by
    rw [mask, Nat.shiftRight_and_distrib, Nat.shiftRight_eq_div_pow, Nat.shiftRight_eq_div_pow,
      Nat.mul_div_cancel _ (Nat.two_pow_pos _), Nat.and_two_pow_sub_one_eq_mod]
  have small : lo / 2 ^ (part - s) < 2 ^ s := by
    rw [Nat.div_lt_iff_lt_mul (Nat.two_pow_pos _), Nat.mul_comm, ← split]
    exact bounded
  have quotient : lo * 2 ^ s / 2 ^ part = lo / 2 ^ (part - s) := by
    rw [split, Nat.mul_div_mul_right _ _ (Nat.two_pow_pos s)]
  rw [moved, Nat.mod_eq_of_lt small, ← Nat.shiftLeft_eq hi s, ← Nat.shiftLeft_add_eq_or_of_lt small, Nat.one_shiftLeft,
    Nat.and_two_pow_sub_one_eq_mod, Nat.shiftLeft_eq, Nat.shiftLeft_eq, ← quotient]
  have parts := Nat.div_add_mod (lo * 2 ^ s) (2 ^ part)
  calc (hi * 2 ^ s + lo * 2 ^ s / 2 ^ part) * 2 ^ part + lo * 2 ^ s % 2 ^ part
      = hi * 2 ^ s * 2 ^ part + (2 ^ part * (lo * 2 ^ s / 2 ^ part) + lo * 2 ^ s % 2 ^ part) := by
        ring
    _ = (hi * 2 ^ part + lo) * 2 ^ s := by
        rw [parts]
        ring

def raiseWords (part hi lo : Nat) (exp : Int) : WideSreal :=
  let shift := part - 1 - Nat.log 2 hi
  if shift ≠ 0 then
    ⟨hi * 2 ^ shift ||| (lo &&& (1 <<< part - 1 <<< (part - shift))) >>> (part - shift),
      lo <<< shift &&& (1 <<< part - 1), exp - (shift : Int)⟩
  else ⟨hi * 2 ^ shift, lo, exp - (shift : Int)⟩

theorem raiseWords_exp (hi lo : Nat) (exp : Int) :
    (raiseWords part hi lo exp).exp = exp - ((part - 1 - Nat.log 2 hi : Nat) : Int) := by
  unfold raiseWords
  dsimp only
  split <;> rfl

theorem raiseWords_spec {lo : Nat} (hi : Nat) (exp : Int) (bounded : lo < 2 ^ part) :
    (raiseWords part hi lo exp).sigHi * 2 ^ part + (raiseWords part hi lo exp).sigLo =
        (hi * 2 ^ part + lo) * 2 ^ (part - 1 - Nat.log 2 hi) ∧
      (raiseWords part hi lo exp).sigLo < 2 ^ part := by
  unfold raiseWords
  dsimp only
  split
  · refine ⟨raised_words hi bounded (by omega), ?_⟩
    rw [Nat.one_shiftLeft, Nat.and_two_pow_sub_one_eq_mod]
    exact Nat.mod_lt _ (Nat.two_pow_pos part)
  · rename_i unshifted
    rw [not_not] at unshifted
    rw [unshifted, Nat.pow_zero, Nat.mul_one, Nat.mul_one]
    exact ⟨rfl, bounded⟩

theorem normalizeSmall_eq {x : WideSreal} (positive : 0 < x.sigHi) :
    normalizeSmall part x =
      let raised := raiseWords part x.sigHi x.sigLo x.exp
      if raised.exp < intMin then none
      else if raised.exp < -srealMaxExp then some zero
      else some raised := by
  rw [normalizeSmall, if_neg positive.ne']
  dsimp only
  rw [raise_eq _ _ _ positive, raiseWords_exp]
  simp only [Nat.zero_add]
  split
  · rfl
  · split
    · rfl
    · unfold raiseWords
      dsimp only
      split <;> rfl

theorem normalizeSmall_zero {x : WideSreal} (isZero : x.sigHi = 0) (positive : 0 < x.sigLo) :
    normalizeSmall part x = normalizeSmall part ⟨x.sigLo, 0, x.exp - part⟩ := by
  rw [normalizeSmall, if_pos isZero, normalizeSmall, if_neg positive.ne']

theorem normalizeSmall_same {hi lo : Nat} {exp : Int} (positive : 0 < hi)
    (bounded : lo < 2 ^ part) {sig : Nat} {exp' : Int}
    (isSig : sig * 2 ^ (2 * part - 1 - Nat.log 2 sig) =
      (hi * 2 ^ part + lo) * 2 ^ (part - 1 - Nat.log 2 hi))
    (isExp : exp' - ((2 * part - 1 - Nat.log 2 sig : Nat) : Int) =
      exp - ((part - 1 - Nat.log 2 hi : Nat) : Int))
    (sigPositive : 0 < sig) (small : sig < srealMinSig (2 * part)) :
    Same part (normalizeSmall part ⟨hi, lo, exp⟩) (Sreal.normalize (2 * part) ⟨sig, exp'⟩) := by
  obtain ⟨isWords, isLow⟩ := raiseWords_spec hi exp bounded
  rw [normalizeSmall_eq positive]
  simp only [Sreal.normalize, sigPositive.ne', if_false, small, if_true,
    raise_eq sig exp' 0 sigPositive, isExp, isSig, raiseWords_exp]
  split
  · exact same_none
  · split
    · exact same_some (by simp [zero]) rfl (Nat.two_pow_pos part)
    · exact same_some isWords (raiseWords_exp hi lo exp) isLow

theorem rounded_words {hi lo s : Nat} (some : 0 < s) (le : s ≤ part) :
    hi / 2 ^ s * 2 ^ part + ((lo + 2 ^ (s - 1)) / 2 ^ s + hi % 2 ^ s * 2 ^ (part - s)) =
      ((hi * 2 ^ part + lo) / 2 ^ (s - 1) + 1) / 2 := by
  obtain ⟨t, rfl⟩ : ∃ t, s = t + 1 := ⟨s - 1, by omega⟩
  rw [shifted_words hi _ le, Nat.add_sub_cancel, ← Nat.add_assoc, Nat.pow_succ,
    ← Nat.div_div_eq_div_mul, Nat.add_div_right _ (Nat.two_pow_pos t)]

theorem rounded_low_le {hi lo s : Nat} (some : 0 < s) (le : s ≤ part) (bounded : lo < 2 ^ part) :
    (lo + 2 ^ (s - 1)) / 2 ^ s + hi % 2 ^ s * 2 ^ (part - s) ≤ 2 ^ part := by
  have remainder : hi % 2 ^ s + 1 ≤ 2 ^ s := Nat.mod_lt _ (Nat.two_pow_pos s)
  have quotient : (lo + 2 ^ (s - 1)) / 2 ^ s ≤ 2 ^ (part - s) := by
    apply Nat.le_of_lt_succ
    rw [Nat.div_lt_iff_lt_mul (Nat.two_pow_pos s), Nat.succ_mul, ← pow_split le]
    have half : 2 ^ (s - 1) < 2 ^ s := Nat.pow_lt_pow_right (by decide) (by omega)
    omega
  calc (lo + 2 ^ (s - 1)) / 2 ^ s + hi % 2 ^ s * 2 ^ (part - s)
      ≤ 2 ^ (part - s) + hi % 2 ^ s * 2 ^ (part - s) := Nat.add_le_add_right quotient _
    _ = (hi % 2 ^ s + 1) * 2 ^ (part - s) := by ring
    _ ≤ 2 ^ s * 2 ^ (part - s) := Nat.mul_le_mul_right _ remainder
    _ = 2 ^ part := by rw [pow_split le, Nat.mul_comm]

theorem carryRounded_spec {x : WideSreal} {sig : Nat} (wide : 0 < part)
    (isSig : x.sigHi * 2 ^ part + x.sigLo = sig) (hiBounded : x.sigHi < 2 ^ part)
    (bounded : x.sigLo ≤ 2 ^ part) :
    (carryRounded part x).toSreal part =
        (if srealMaxSig (2 * part) < sig then ⟨sig >>> 1, x.exp + 1⟩ else ⟨sig, x.exp⟩) ∧
      (carryRounded part x).sigLo < 2 ^ part := by
  have double := Sreal.minSig_double wide
  have positive := Nat.two_pow_pos part
  have isTop : x.sigLo &&& 1 <<< part ≠ 0 ↔ 2 ^ part ≤ x.sigLo := by
    apply and_top_bit
    rw [Nat.pow_succ]
    omega
  have isMax : srealMaxSig part + 1 = 2 ^ part := Nat.sub_add_cancel positive
  unfold carryRounded
  split
  · rename_i above
    have full : x.sigLo = 2 ^ part := Nat.le_antisymm bounded (isTop.mp above)
    have whole : sig = (x.sigHi + 1) * 2 ^ part := by
      rw [← isSig, full, Nat.succ_mul]
    have carried : carry part x = ⟨x.sigHi + 1, 0, x.exp⟩ := by
      rw [carry, if_pos above, full, Nat.one_shiftLeft, Nat.sub_self]
    have halved : 2 ^ part >>> 1 = srealMinSig part := by
      rw [Nat.shiftRight_one, ← double, Nat.mul_div_cancel _ (by decide)]
    have squareHalved : (2 ^ part * 2 ^ part) >>> 1 = srealMinSig part * 2 ^ part := by
      rw [Nat.shiftRight_one]
      nth_rewrite 1 [← double]
      rw [Nat.mul_assoc, Nat.mul_comm 2, ← Nat.mul_assoc, Nat.mul_div_cancel _ (by decide)]
    have isMaxWords : srealMaxSig (2 * part) + 1 = 2 ^ part * 2 ^ part := by
      rw [← Nat.pow_add, ← Nat.two_mul]
      exact Nat.sub_add_cancel (Nat.two_pow_pos _)
    rw [carried]
    by_cases tooLarge : srealMaxSig part < x.sigHi + 1
    · have isWord : x.sigHi + 1 = 2 ^ part := by omega
      rw [isWord] at whole
      rw [if_pos tooLarge, if_pos (by omega), whole, squareHalved]
      simp only [toSreal, isWord, halved, Nat.zero_shiftRight, Nat.add_zero, true_and]
      exact positive
    · have within : (x.sigHi + 1) * 2 ^ part ≤ srealMaxSig part * 2 ^ part :=
        Nat.mul_le_mul_right _ (by omega)
      rw [if_neg tooLarge, if_neg (by rw [maxSig_words]; omega), whole]
      exact ⟨rfl, positive⟩
  · rename_i below
    have lowBounded : x.sigLo < 2 ^ part := Nat.not_le.mp fun atLeast => below (isTop.mpr atLeast)
    rw [if_neg, toSreal, isSig]
    · exact ⟨rfl, lowBounded⟩
    · rw [maxSig_words, ← isSig]
      have high : x.sigHi * 2 ^ part ≤ srealMaxSig part * 2 ^ part :=
        Nat.mul_le_mul_right _ (by omega)
      omega

theorem log_large {hi : Nat} (large : srealMaxSig part < hi)
    (hiBounded : hi < 2 ^ (2 * part)) : part ≤ Nat.log 2 hi ∧ Nat.log 2 hi < 2 * part :=
  ⟨le_log_of_large large, Nat.log_lt_of_lt_pow (Nat.zero_lt_of_lt large).ne' hiBounded⟩

theorem words_large {hi : Nat} (lo : Nat) (large : srealMaxSig part < hi) :
    srealMaxSig (2 * part) < hi * 2 ^ part + lo := by
  have positive := Nat.two_pow_pos part
  have isMax : srealMaxSig part + 1 = 2 ^ part := Nat.sub_add_cancel positive
  have high : (srealMaxSig part + 1) * 2 ^ part ≤ hi * 2 ^ part := Nat.mul_le_mul_right _ large
  rw [maxSig_words]
  rw [Nat.succ_mul] at high
  omega

theorem words_not_small {hi : Nat} (lo : Nat) (wide : 0 < part) (atLeast : srealMinSig part ≤ hi) :
    srealMinSig (2 * part) ≤ hi * 2 ^ part + lo := by
  rw [minSig_words wide]
  exact (Nat.mul_le_mul_right _ atLeast).trans (Nat.le_add_right _ _)

theorem minSig_le_maxSig (wide : 0 < part) : srealMinSig part ≤ srealMaxSig part := by
  have double := Sreal.minSig_double wide
  have positive : 0 < srealMinSig part := Nat.two_pow_pos _
  unfold srealMaxSig
  omega

theorem normalizeLarge_same {hi lo : Nat} {exp : Int} (wide : 0 < part)
    (large : srealMaxSig part < hi) (hiBounded : hi < 2 ^ (2 * part)) (bounded : lo < 2 ^ part) :
    Same part (normalizeLarge part ⟨hi, lo, exp⟩)
      (Sreal.normalize (2 * part) ⟨hi * 2 ^ part + lo, exp⟩) := by
  obtain ⟨logLow, logHigh⟩ := log_large large hiBounded
  have wordsLarge := words_large lo large
  have isLog := log_words (Nat.zero_lt_of_lt large) bounded
  have wordsShift : Nat.log 2 hi + part + 1 - 2 * part = Nat.log 2 hi + 1 - part := by omega
  have wordsBit : Nat.log 2 hi + part - 2 * part = Nat.log 2 hi + 1 - part - 1 := by omega
  obtain ⟨s, isShift⟩ : ∃ s, Nat.log 2 hi + 1 - part = s := ⟨_, rfl⟩
  have someShift : 0 < s := by omega
  have shiftLe : s ≤ part := by omega
  have rounding : (hi * 2 ^ part + lo) / 2 ^ s + (hi * 2 ^ part + lo) / 2 ^ (s - 1) % 2 =
      ((hi * 2 ^ part + lo) / 2 ^ (s - 1) + 1) / 2 := by
    obtain ⟨t, rfl⟩ : ∃ t, s = t + 1 := ⟨s - 1, by omega⟩
    rw [Nat.add_sub_cancel, Nat.pow_succ, ← Nat.div_div_eq_div_mul]
    omega
  have hiShifted : hi / 2 ^ s < 2 ^ part := by
    rw [Nat.div_lt_iff_lt_mul (Nat.two_pow_pos s), ← Nat.pow_add]
    apply (Nat.lt_pow_succ_log_self (by decide : 1 < 2) hi).trans_le
    exact Nat.pow_le_pow_right (by decide) (by omega)
  obtain ⟨same, lowBounded⟩ := carryRounded_spec
    (x := ⟨hi / 2 ^ s, (lo + 2 ^ (s - 1)) / 2 ^ s + hi % 2 ^ s * 2 ^ (part - s), exp + s⟩) wide
    (rounded_words someShift shiftLe) hiShifted (rounded_low_le someShift shiftLe bounded)
  have notSmall : ¬hi * 2 ^ part + lo < srealMinSig (2 * part) :=
    Nat.not_lt.mpr (words_not_small lo wide ((minSig_le_maxSig wide).trans (Nat.le_of_lt large)))
  rw [normalizeLarge, Sreal.normalize]
  dsimp only
  rw [if_neg (Nat.zero_lt_of_lt wordsLarge).ne', if_neg notSmall, if_pos wordsLarge,
    lower_eq wide, lower_eq (by omega), isLog, wordsShift, wordsBit, isShift,
    if_neg someShift.ne', Sreal.round]
  have isNumber : (⟨hi >>> s, (lo + 1 <<< (s - 1)) >>> s + (hi &&& (1 <<< s - 1)) <<< (part - s),
      exp + (s : Int)⟩ : WideSreal) =
        ⟨hi / 2 ^ s, (lo + 2 ^ (s - 1)) / 2 ^ s + hi % 2 ^ s * 2 ^ (part - s), exp + s⟩ := by
    rw [Nat.one_shiftLeft, Nat.one_shiftLeft, Nat.and_two_pow_sub_one_eq_mod, Nat.shiftLeft_eq,
      Nat.shiftRight_eq_div_pow, Nat.shiftRight_eq_div_pow]
  dsimp only
  rw [Nat.zero_add, isNumber, if_neg someShift.ne', rounding, ← same]
  generalize carryRounded part _ = rounded at same lowBounded
  change Same part
    (if intMax < rounded.exp then none
      else if srealMaxExp < rounded.exp then
        some ⟨srealMaxSig part, srealMaxSig part, srealMaxExp⟩
      else some rounded)
    (if intMax < rounded.exp then none
      else if srealMaxExp < rounded.exp then some ⟨srealMaxSig (2 * part), srealMaxExp⟩
      else some (rounded.toSreal part))
  split
  · exact same_none
  · split
    · exact same_some maxSig_words.symm rfl
        (Nat.sub_lt (Nat.two_pow_pos part) Nat.one_pos)
    · exact same_some rfl rfl lowBounded

theorem normalize_same {x : WideSreal} (wide : 0 < part) (hiBounded : x.sigHi < 2 ^ (2 * part))
    (bounded : x.sigLo < 2 ^ part) :
    Same part (normalize part x) (Sreal.normalize (2 * part) (x.toSreal part)) := by
  obtain ⟨hi, lo, exp⟩ := x
  have double := Sreal.minSig_double wide
  unfold normalize
  rw [toSreal]
  dsimp only at hiBounded bounded ⊢
  by_cases isZero : lo = 0 ∧ hi = 0
  · obtain ⟨rfl, rfl⟩ := isZero
    rw [if_pos ⟨rfl, rfl⟩]
    simp only [Sreal.normalize, Nat.zero_mul, Nat.add_zero, if_true]
    exact same_some (by simp) rfl (Nat.two_pow_pos part)
  · rw [if_neg isZero]
    by_cases small : hi < srealMinSig part
    · rw [if_pos small]
      have wordsSmall : hi * 2 ^ part + lo < srealMinSig (2 * part) := by
        rw [minSig_words wide]
        have high : (hi + 1) * 2 ^ part ≤ srealMinSig part * 2 ^ part :=
          Nat.mul_le_mul_right _ small
        rw [Nat.succ_mul] at high
        omega
      obtain rfl | positive := Nat.eq_zero_or_pos hi
      · have lowPositive : 0 < lo := by omega
        have logLow : Nat.log 2 lo < part := Nat.log_lt_of_lt_pow lowPositive.ne' bounded
        rw [Nat.zero_mul, Nat.zero_add] at wordsSmall ⊢
        rw [normalizeSmall_zero rfl lowPositive]
        apply normalizeSmall_same lowPositive (Nat.two_pow_pos part) _ _ lowPositive wordsSmall
        · rw [Nat.add_zero, Nat.mul_assoc, ← Nat.pow_add]
          congr 2
          omega
        · dsimp only
          omega
      · have isLog := log_words positive bounded
        have logSmall := log_lt_of_small positive small
        have wordsPositive : 0 < hi * 2 ^ part + lo :=
          Nat.add_pos_left (Nat.mul_pos positive (Nat.two_pow_pos part)) lo
        apply normalizeSmall_same positive bounded _ _ wordsPositive wordsSmall
        · rw [isLog]
          congr 2
          omega
        · rw [isLog]
          omega
    · rw [if_neg small]
      by_cases large : srealMaxSig part < hi
      · rw [if_pos large]
        exact normalizeLarge_same wide large hiBounded bounded
      · rw [if_neg large]
        have atLeast := words_not_small lo wide (Nat.not_lt.mp small)
        have atMost : hi * 2 ^ part + lo ≤ srealMaxSig (2 * part) := by
          rw [maxSig_words]
          have high := Nat.mul_le_mul_right (2 ^ part) (Nat.not_lt.mp large)
          have low : lo ≤ srealMaxSig part := Nat.le_sub_one_of_lt bounded
          omega
        have nonzero : hi * 2 ^ part + lo ≠ 0 :=
          ((Nat.two_pow_pos _).trans_le atLeast).ne'
        rw [Sreal.normalize, if_neg nonzero, if_neg (Nat.not_lt.mpr atLeast),
          if_neg (Nat.not_lt.mpr atMost)]
        exact same_some rfl rfl bounded

def Normalizes (part : Nat) (result : Option WideSreal) : Prop :=
  ∃ number, result = some number ∧ number.Normalized part

theorem Normalized.sigLo_lt {x : WideSreal} (normalized : Normalized part x) :
    x.sigLo < 2 ^ part := by
  have positive := Nat.two_pow_pos part
  obtain rfl | ⟨-, -, low, -⟩ := normalized
  · exact positive
  · unfold srealMaxSig at low
    omega

theorem Normalized.sigHi_lt {x : WideSreal} (normalized : Normalized part x) :
    x.sigHi < 2 ^ part := by
  have positive := Nat.two_pow_pos part
  obtain rfl | ⟨-, high, -, -⟩ := normalized
  · exact positive
  · unfold srealMaxSig at high
    omega

theorem normalized_iff {x : WideSreal} (wide : 0 < part) (bounded : x.sigLo < 2 ^ part) :
    Normalized part x ↔ (x.toSreal part).Normalized (2 * part) := by
  have positive := Nat.two_pow_pos part
  have low : x.sigLo ≤ srealMaxSig part := Nat.le_sub_one_of_lt bounded
  have isZero : x = zero ↔ (x.toSreal part).sig = 0 ∧ (x.toSreal part).exp = -srealMaxExp := by
    obtain ⟨hi, lo, exp⟩ := x
    simp only [zero, mk.injEq, toSreal, Nat.add_eq_zero_iff, Nat.mul_eq_zero]
    constructor
    · rintro ⟨rfl, rfl, isExp⟩
      exact ⟨⟨Or.inl rfl, rfl⟩, isExp⟩
    · rintro ⟨⟨noHigh, noLow⟩, isExp⟩
      exact ⟨noHigh.resolve_right positive.ne', noLow, isExp⟩
  have isLeast : srealMinSig part ≤ x.sigHi ↔ srealMinSig (2 * part) ≤ (x.toSreal part).sig := by
    constructor
    · exact fun atLeast => words_not_small _ wide atLeast
    · intro atLeast
      rw [minSig_words wide] at atLeast
      by_contra small
      have high : (x.sigHi + 1) * 2 ^ part ≤ srealMinSig part * 2 ^ part :=
        Nat.mul_le_mul_right _ (Nat.not_le.mp small)
      rw [Nat.succ_mul] at high
      unfold toSreal at atLeast
      dsimp only at atLeast
      omega
  have isMost : x.sigHi ≤ srealMaxSig part ↔ (x.toSreal part).sig ≤ srealMaxSig (2 * part) := by
    constructor
    · intro atMost
      have high := Nat.mul_le_mul_right (2 ^ part) atMost
      rw [maxSig_words]
      unfold toSreal
      dsimp only
      omega
    · intro atMost
      by_contra large
      exact absurd atMost (Nat.not_le.mpr (words_large _ (Nat.not_le.mp large)))
  unfold Normalized Sreal.Normalized
  rw [isZero, isLeast, isMost]
  simp only [low, true_and]
  rfl

theorem normalizes_of_same {result : Option WideSreal} {one : Option Sreal} (wide : 0 < part)
    (same : Same part result one) : Normalizes part result ↔ Sreal.Normalizes (2 * part) one := by
  obtain ⟨rfl, bounded⟩ := same
  cases result with
  | none => simp [Normalizes, Sreal.Normalizes]
  | some number =>
    have low := bounded number rfl
    simp [Normalizes, Sreal.Normalizes, normalized_iff wide low]

theorem Normalized.toSreal {x : WideSreal} (wide : 0 < part) (normalized : Normalized part x) :
    (x.toSreal part).Normalized (2 * part) :=
  (normalized_iff wide normalized.sigLo_lt).mp normalized

theorem sigHi_le_of_words {x y : WideSreal} (le : (x.toSreal part).sig ≤ (y.toSreal part).sig)
    (bounded : y.sigLo < 2 ^ part) : x.sigHi ≤ y.sigHi := by
  by_contra greater
  have high : (y.sigHi + 1) * 2 ^ part ≤ x.sigHi * 2 ^ part :=
    Nat.mul_le_mul_right _ (Nat.not_le.mp greater)
  rw [Nat.succ_mul] at high
  unfold toSreal at le
  dsimp only at le
  omega

theorem words_lt {lo lo' : Nat} (hi hi' : Nat) (bounded : lo < 2 ^ part) (bounded' : lo' < 2 ^ part) :
    hi * 2 ^ part + lo < hi' * 2 ^ part + lo' ↔ hi < hi' ∨ (hi = hi' ∧ lo < lo') := by
  obtain less | rfl | greater := Nat.lt_trichotomy hi hi'
  · have high : (hi + 1) * 2 ^ part ≤ hi' * 2 ^ part := Nat.mul_le_mul_right _ less
    rw [Nat.succ_mul] at high
    exact iff_of_true (by omega) (Or.inl less)
  · omega
  · have high : (hi' + 1) * 2 ^ part ≤ hi * 2 ^ part := Nat.mul_le_mul_right _ greater
    rw [Nat.succ_mul] at high
    exact iff_of_false (by omega) (by omega)

theorem compare_same {a b : WideSreal} (aBounded : a.sigLo < 2 ^ part)
    (bBounded : b.sigLo < 2 ^ part) :
    compare a b = Sreal.compare (a.toSreal part) (b.toSreal part) := by
  have greater := words_lt b.sigHi a.sigHi bBounded aBounded
  have less := words_lt a.sigHi b.sigHi aBounded bBounded
  unfold compare Sreal.compare toSreal
  dsimp only
  split
  · rfl
  · split
    · rfl
    · split
      · rename_i above
        rw [if_pos (greater.mpr (Or.inl above))]
      · split
        · rename_i below
          rw [if_neg (by omega), if_pos (less.mpr (Or.inl below))]
        · split
          · rw [if_pos (by omega)]
          · split
            · rw [if_neg (by omega), if_pos (by omega)]
            · rw [if_neg (by omega), if_neg (by omega)]

theorem combineAligned_normalizes {combine : WideSreal → WideSreal → WideSreal}
    {a b : WideSreal} (wide : 0 < part) (narrow : part ≤ 2 ^ 27) (aNormalized : Normalized part a)
    (bNormalized : Normalized part b)
    (notLess : Sreal.NotLess (a.toSreal part) (b.toSreal part))
    (combined : ∀ x : WideSreal, x.sigLo < 2 ^ part → (x.toSreal part).sig ≤ (a.toSreal part).sig →
      (combine a x).sigLo < 2 ^ part ∧ (combine a x).sigHi < 2 ^ (part + 1) ∧
        (combine a x).exp = a.exp) :
    Normalizes part (combineAligned part combine a b) := by
  unfold combineAligned
  by_cases far : (a.exp - b.exp).toNat > 2 * part
  · rw [if_pos far]
    exact ⟨_, rfl, aNormalized⟩
  · obtain ⟨one, isAligned, atMost⟩ := Sreal.aligned (by omega) (aNormalized.toSreal wide)
      (bNormalized.toSreal wide) notLess far
    have alignSame : Same part (align part b (a.exp - b.exp).toNat)
        (Sreal.align (2 * part) (b.toSreal part) (a.exp - b.exp).toNat) := by
      unfold align Sreal.align
      split
      · exact same_some rfl rfl bNormalized.sigLo_lt
      · exact shiftRight_same wide bNormalized.sigHi_lt bNormalized.sigLo_lt
    obtain ⟨isOne, bounded⟩ := alignSame
    rw [show Sreal.align (2 * part) (b.toSreal part) (a.exp - b.exp).toNat = some one from isAligned,
      Option.map_eq_some_iff] at isOne
    obtain ⟨bb, isBb, rfl⟩ := isOne
    obtain ⟨lowBounded, highBounded, isExp⟩ := combined bb (bounded bb isBb) atMost
    have word : 2 ^ (part + 1) ≤ 2 ^ (2 * part) := Nat.pow_le_pow_right (by decide) (by omega)
    rw [if_neg far, isBb, Option.bind_some,
      normalizes_of_same wide (normalize_same wide (highBounded.trans_le word) lowBounded)]
    obtain ⟨expLow, expHigh⟩ := (aNormalized.toSreal wide).exp_range
    apply Sreal.normalize_of_bounded (by omega) (by omega)
    · have high : ((combine a bb).sigHi + 1) * 2 ^ part ≤ 2 ^ (part + 1) * 2 ^ part :=
        Nat.mul_le_mul_right _ highBounded
      rw [← Nat.pow_add, Nat.succ_mul] at high
      rw [show 2 * part + 1 = part + 1 + part by omega]
      omega
    · rw [isExp]
      exact expLow
    · rw [isExp]
      exact expHigh

theorem sumWords {a b : WideSreal} (aHigh : a.sigHi < 2 ^ part) (aLow : a.sigLo < 2 ^ part)
    (bLow : b.sigLo < 2 ^ part) (le : (b.toSreal part).sig ≤ (a.toSreal part).sig) :
    (carry part ⟨a.sigHi + b.sigHi, a.sigLo + b.sigLo, a.exp⟩).sigLo < 2 ^ part ∧
      (carry part ⟨a.sigHi + b.sigHi, a.sigLo + b.sigLo, a.exp⟩).sigHi < 2 ^ (part + 1) ∧
      (carry part ⟨a.sigHi + b.sigHi, a.sigLo + b.sigLo, a.exp⟩).exp = a.exp := by
  have bHigh := sigHi_le_of_words le aLow
  have sumBounded : a.sigLo + b.sigLo < 2 ^ (part + 1) := by
    rw [Nat.pow_succ]
    omega
  obtain ⟨same, low, high⟩ :=
    carry_spec (x := ⟨a.sigHi + b.sigHi, a.sigLo + b.sigLo, a.exp⟩) sumBounded
  refine ⟨low, ?_, ?_⟩
  · rw [Nat.pow_succ]
    dsimp only at high
    omega
  · exact congrArg Sreal.exp same

theorem add_normalizes {a b : WideSreal} (wide : 0 < part) (narrow : part ≤ 2 ^ 27)
    (aNormalized : Normalized part a) (bNormalized : Normalized part b) :
    Normalizes part (add part a b) := by
  unfold add
  dsimp only
  rw [compare_same aNormalized.sigLo_lt bNormalized.sigLo_lt]
  split
  · rename_i less
    apply combineAligned_normalizes wide narrow bNormalized aNormalized
      (Sreal.notLess_of_compare_lt less)
    intro x low le
    exact sumWords bNormalized.sigHi_lt bNormalized.sigLo_lt low le
  · rename_i notLess
    apply combineAligned_normalizes wide narrow aNormalized bNormalized
      (Sreal.notLess_of_compare notLess)
    intro x low le
    exact sumWords aNormalized.sigHi_lt aNormalized.sigLo_lt low le

theorem sub_normalizes {a b : WideSreal} (wide : 0 < part) (narrow : part ≤ 2 ^ 27)
    (aNormalized : Normalized part a) (bNormalized : Normalized part b)
    (notLess : compare a b ≠ .lt) : Normalizes part (sub part a b) := by
  rw [sub, if_neg notLess]
  rw [compare_same aNormalized.sigLo_lt bNormalized.sigLo_lt] at notLess
  apply combineAligned_normalizes wide narrow aNormalized bNormalized
    (Sreal.notLess_of_compare notLess)
  intro x low le
  have aHigh := aNormalized.sigHi_lt
  have aLow := aNormalized.sigLo_lt
  have xHigh := sigHi_le_of_words le aLow
  have word : 2 ^ (part + 1) ≤ 2 ^ (2 * part) := Nat.pow_le_pow_right (by decide) (by omega)
  rw [Nat.pow_succ] at word ⊢
  unfold subWords
  dsimp only
  split
  · rename_i borrows
    have less : x.sigHi < a.sigHi := by
      by_contra notBelow
      have same : x.sigHi = a.sigHi := Nat.le_antisymm xHigh (Nat.not_lt.mp notBelow)
      unfold toSreal at le
      rw [same] at le
      dsimp only at le
      omega
    have difference : a.sigHi + (2 ^ (2 * part) - x.sigHi) + (2 ^ (2 * part) - 1) =
        a.sigHi - x.sigHi - 1 + 2 ^ (2 * part) * 2 := by omega
    rw [difference, Nat.add_mul_mod_self_left, Nat.mod_eq_of_lt (by omega), Nat.one_shiftLeft]
    refine ⟨?_, ?_, rfl⟩ <;> dsimp only <;> omega
  · have difference : a.sigHi + (2 ^ (2 * part) - x.sigHi) =
        a.sigHi - x.sigHi + 2 ^ (2 * part) := by omega
    rw [difference, Nat.add_mod_right, Nat.mod_eq_of_lt (by omega)]
    refine ⟨?_, ?_, rfl⟩ <;> dsimp only <;> omega

theorem mul_lt_word {x y : Nat} (xBounded : x < 2 ^ part) (yBounded : y < 2 ^ part) :
    x * y + 2 ^ part ≤ 2 ^ (2 * part) := by
  obtain ⟨top, isTop⟩ : ∃ top, 2 ^ part = top + 1 :=
    ⟨2 ^ part - 1, (Nat.sub_add_cancel (Nat.two_pow_pos part)).symm⟩
  have product : x * y ≤ top * top := Nat.mul_le_mul (by omega) (by omega)
  rw [Nat.two_mul, Nat.pow_add, isTop, Nat.mul_succ, Nat.succ_mul]
  omega

theorem sum_words (top second third word : Nat) :
    (top + (second / word + third / word) + (second % word + third % word) / word) * word +
        (second % word + third % word) % word = top * word + (second + third) := by
  have isSecond := Nat.div_add_mod second word
  have isThird := Nat.div_add_mod third word
  have isSum := Nat.div_add_mod (second % word + third % word) word
  calc (top + (second / word + third / word) + (second % word + third % word) / word) * word +
        (second % word + third % word) % word
      = top * word + word * (second / word) + word * (third / word) +
          (word * ((second % word + third % word) / word) +
            (second % word + third % word) % word) := by ring
    _ = top * word + (word * (second / word) + second % word) +
          (word * (third / word) + third % word) := by
        rw [isSum]
        ring
    _ = top * word + (second + third) := by
        rw [isSecond, isThird]
        ring

theorem mulWords_spec {a b : WideSreal} (aHigh : a.sigHi < 2 ^ part)
    (aLow : a.sigLo < 2 ^ part) (bHigh : b.sigHi < 2 ^ part) (bLow : b.sigLo < 2 ^ part) :
    (mulWords part a b).toSreal part =
        ⟨(a.toSreal part).sig * (b.toSreal part).sig / 2 ^ part, a.exp + b.exp + part⟩ ∧
      (mulWords part a b).sigLo < 2 ^ part ∧ (mulWords part a b).sigHi < 2 ^ (2 * part) := by
  obtain ⟨aHi, aLo, aExp⟩ := a
  obtain ⟨bHi, bLo, bExp⟩ := b
  have positive := Nat.two_pow_pos part
  dsimp only at aHigh aLow bHigh bLow
  have isWord : 2 ^ (2 * part) = 2 ^ part * 2 ^ part := by rw [Nat.two_mul, Nat.pow_add]
  have first := mul_lt_word aLow bLow
  have second := mul_lt_word aLow bHigh
  have third := mul_lt_word aHigh bLow
  have carried : aLo * bLo / 2 ^ part < 2 ^ part := by
    rw [Nat.div_lt_iff_lt_mul positive, ← isWord]
    omega
  have isFirst : aLo * bLo % 2 ^ (2 * part) = aLo * bLo := Nat.mod_eq_of_lt (by omega)
  have isSecond : aLo * bHi % 2 ^ (2 * part) = aLo * bHi := Nat.mod_eq_of_lt (by omega)
  have isThird : (aHi * bLo + aLo * bLo / 2 ^ part) % 2 ^ (2 * part) =
      aHi * bLo + aLo * bLo / 2 ^ part := Nat.mod_eq_of_lt (by omega)
  have product : (aHi * 2 ^ part + aLo) * (bHi * 2 ^ part + bLo) / 2 ^ part =
      aHi * bHi * 2 ^ part + (aLo * bHi + (aHi * bLo + aLo * bLo / 2 ^ part)) := by
    have whole : (aHi * 2 ^ part + aLo) * (bHi * 2 ^ part + bLo) =
        aLo * bLo + 2 ^ part * (aHi * bHi * 2 ^ part + (aLo * bHi + aHi * bLo)) := by ring
    rw [whole, Nat.add_mul_div_left _ _ positive]
    ring
  have sum := sum_words (aHi * bHi) (aLo * bHi) (aHi * bLo + aLo * bLo / 2 ^ part) (2 ^ part)
  rw [← product] at sum
  have quotientLt : (aHi * 2 ^ part + aLo) * (bHi * 2 ^ part + bLo) / 2 ^ part <
      2 ^ (2 * part) * 2 ^ part := by
    have aWords : aHi * 2 ^ part + aLo < 2 ^ (2 * part) := by
      have := Nat.mul_le_mul_right (2 ^ part) (Nat.succ_le_of_lt aHigh)
      rw [Nat.succ_mul, ← isWord] at this
      omega
    have bWords : bHi * 2 ^ part + bLo < 2 ^ (2 * part) := by
      have := Nat.mul_le_mul_right (2 ^ part) (Nat.succ_le_of_lt bHigh)
      rw [Nat.succ_mul, ← isWord] at this
      omega
    rw [Nat.div_lt_iff_lt_mul positive, Nat.mul_assoc, ← isWord]
    exact Nat.mul_lt_mul_of_lt_of_lt aWords bWords
  unfold mulWords toSreal
  simp only [Nat.one_shiftLeft, Nat.and_two_pow_sub_one_eq_mod, Nat.shiftRight_eq_div_pow, isFirst,
    isSecond, isThird]
  generalize aHi * bHi + (aLo * bHi / 2 ^ part + (aHi * bLo + aLo * bLo / 2 ^ part) / 2 ^ part) +
    (aLo * bHi % 2 ^ part + (aHi * bLo + aLo * bLo / 2 ^ part) % 2 ^ part) / 2 ^ part = high at sum ⊢
  have highLt : high < 2 ^ (2 * part) := by
    apply Nat.lt_of_mul_lt_mul_right (a := 2 ^ part)
    omega
  rw [Nat.mod_eq_of_lt highLt]
  refine ⟨?_, Nat.mod_lt _ positive, highLt⟩
  rw [sum]

theorem truncated_roundedExp {product : Nat} (exp : Int) (wide : 4 ≤ part)
    (low : 2 ^ (4 * part - 2) ≤ product) :
    srealMaxSig (2 * part) < product / 2 ^ part ∧
      roundedExp (2 * part) (product / 2 ^ part) (exp + part) =
        roundedExp (2 * part) product exp := by
  have positive := Nat.two_pow_pos part
  have high : 4 * part - 2 ≤ Nat.log 2 product := Nat.le_log_of_pow_le (by decide) low
  have isLog := Nat.log_div_base_pow 2 product part
  constructor
  · have atLeast : 2 ^ (2 * part) ≤ product / 2 ^ part := by
      rw [Nat.le_div_iff_mul_le positive, ← Nat.pow_add]
      exact (Nat.pow_le_pow_right (by decide) (by omega)).trans low
    exact Nat.sub_one_lt_of_le (Nat.two_pow_pos _) atLeast
  · have carries : 2 ^ (Nat.log 2 product - part + 1) ≤
        product / 2 ^ part + 2 ^ (Nat.log 2 product - part - 2 * part) ↔
          2 ^ (Nat.log 2 product + 1) ≤ product + 2 ^ (Nat.log 2 product - 2 * part) := by
      have unit : 2 ^ (Nat.log 2 product - 2 * part) =
          2 ^ part * 2 ^ (Nat.log 2 product - part - 2 * part) := by
        rw [← Nat.pow_add]
        congr 1
        omega
      rw [unit, ← Nat.add_mul_div_left _ _ positive, Nat.le_div_iff_mul_le positive, ← Nat.pow_add]
      rw [show Nat.log 2 product - part + 1 + part = Nat.log 2 product + 1 by omega]
    rw [roundedExp_of_log _ isLog, roundedExp_of_log exp rfl]
    simp only [carries]
    omega

theorem eq_zero_of_small {x : WideSreal} (normalized : Normalized part x)
    (small : x.sigHi < srealMinSig part) : x = zero := by
  obtain isZero | ⟨atLeast, -⟩ := normalized
  · exact isZero
  · omega

theorem mulWords_normalizes_iff {a b : WideSreal} (wide : 4 ≤ part) (narrow : part ≤ 2 ^ 27)
    (aNormalized : Normalized part a) (bNormalized : Normalized part b)
    (aLarge : srealMinSig part ≤ a.sigHi) (bLarge : srealMinSig part ≤ b.sigHi) :
    Normalizes part (normalize part (mulWords part a b)) ↔
      Sreal.MulFits (2 * part) (a.toSreal part) (b.toSreal part) := by
  have aOne := aNormalized.toSreal (by omega)
  have bOne := bNormalized.toSreal (by omega)
  have aLeast : srealMinSig (2 * part) ≤ (a.toSreal part).sig :=
    words_not_small _ (by omega) aLarge
  have bLeast : srealMinSig (2 * part) ≤ (b.toSreal part).sig :=
    words_not_small _ (by omega) bLarge
  obtain ⟨low, high⟩ := Sreal.product_range (by omega) aLeast aOne.sig_lt bLeast bOne.sig_lt
  obtain ⟨large, -⟩ := Sreal.product_roundedExp (a.exp + b.exp) (by omega) low high
  have noWrap : (a.toSreal part).sig * (b.toSreal part).sig < 2 ^ (2 * (2 * part)) := by
    have more : 2 ^ 1 ≤ 2 ^ (2 * part + 1) := Nat.pow_le_pow_right (by decide) (by omega)
    omega
  obtain ⟨truncatedLarge, sameExp⟩ := truncated_roundedExp (a.exp + b.exp) wide
    (show 2 ^ (4 * part - 2) ≤ (a.toSreal part).sig * (b.toSreal part).sig by
      rwa [show 2 * (2 * part) - 2 = 4 * part - 2 by omega] at low)
  obtain ⟨isWords, lowBounded, highBounded⟩ := mulWords_spec aNormalized.sigHi_lt
    aNormalized.sigLo_lt bNormalized.sigHi_lt bNormalized.sigLo_lt
  rw [normalizes_of_same (by omega) (normalize_same (by omega) highBounded lowBounded), isWords,
    Sreal.normalize_large_iff (by omega) truncatedLarge, sameExp,
    ← Sreal.mul_normalizes_iff (by omega) (by omega) aOne bOne, Sreal.mul, if_neg (by omega),
    Nat.mod_eq_of_lt noWrap, Sreal.normalize_large_iff (by omega) large]
  rfl

theorem mulFits_comm {a b : Sreal} : Sreal.MulFits part a b ↔ Sreal.MulFits part b a := by
  unfold Sreal.MulFits
  rw [Int.add_comm a.exp, Nat.mul_comm a.sig]
  omega

theorem mul_normalizes_iff {a b : WideSreal} (wide : 4 ≤ part) (narrow : part ≤ 2 ^ 27)
    (aNormalized : Normalized part a) (bNormalized : Normalized part b) :
    Normalizes part (mul part a b) ↔
      Sreal.MulFits (2 * part) (a.toSreal part) (b.toSreal part) := by
  unfold mul
  split
  · rename_i small
    refine iff_of_true ⟨_, rfl, Or.inl rfl⟩ ?_
    obtain aSmall | bSmall := small
    · left
      rw [eq_zero_of_small aNormalized aSmall]
      simp [toSreal, zero]
    · right
      left
      rw [eq_zero_of_small bNormalized bSmall]
      simp [toSreal, zero]
  · rename_i notSmall
    simp only [not_or, Nat.not_lt] at notSmall
    split
    · rw [mulWords_normalizes_iff wide narrow bNormalized aNormalized notSmall.2 notSmall.1,
        mulFits_comm]
    · exact mulWords_normalizes_iff wide narrow aNormalized bNormalized notSmall.1 notSmall.2

def roundedDivisor (part : Nat) (b : WideSreal) : Nat :=
  ((b.toSreal part).sig + 2 ^ (part / 2 - 1)) / 2 ^ (part / 2)

/-- The quotient is zero or large enough.  `normalize` checks it for overflow. -/
def DivFits (part : Nat) (a b : WideSreal) : Prop :=
  a.sigHi = 0 ∨ -srealMaxExp < a.exp - b.exp - 2 * part + 1 ∨
    (a.exp - b.exp - 2 * part + 1 = -srealMaxExp ∧
      roundedDivisor part b * 2 ^ (part / 2) ≤ (a.toSreal part).sig)

theorem divisor_eq {half : Nat} (isHalf : part = 2 * half) (some : 0 < half) (b : WideSreal) :
    divisor part b = roundedDivisor part b := by
  obtain ⟨hi, lo, exp⟩ := b
  have quarters : part / 2 = half := by omega
  have positive := Nat.two_pow_pos (half - 1)
  have isUnit : 2 ^ half = 2 ^ (half - 1) * 2 := by
    rw [← Nat.pow_succ]
    congr 1
    omega
  have isWord : 2 ^ part = 2 ^ half * 2 ^ half := by rw [isHalf, Nat.two_mul, Nat.pow_add]
  have whole : hi * 2 ^ part + lo + 2 ^ (half - 1) =
      lo + 2 ^ (half - 1) + 2 ^ half * (hi * 2 ^ half) := by
    rw [isWord]
    ring
  have rounded : (lo + 2 ^ (half - 1)) / 2 ^ half = (lo / 2 ^ (half - 1) + 1) / 2 := by
    rw [isUnit, ← Nat.div_div_eq_div_mul, Nat.add_div_right _ positive]
  have truncated : lo / 2 ^ half = lo / 2 ^ (half - 1) / 2 := by
    rw [isUnit, Nat.div_div_eq_div_mul]
  unfold divisor roundedDivisor toSreal
  dsimp only
  rw [quarters, Nat.one_shiftLeft, Nat.and_two_pow, Nat.testBit_eq_decide_div_mod_eq,
    Nat.shiftLeft_eq, Nat.shiftRight_eq_div_pow, whole,
    Nat.add_mul_div_left _ _ (Nat.two_pow_pos half), rounded, truncated]
  by_cases odd : lo / 2 ^ (half - 1) % 2 = 1
  · rw [if_pos (by simp [odd])]
    omega
  · rw [if_neg (by simp [odd])]
    omega

theorem quotient_by_halves (a d unit : Nat) (positive : 0 < d) :
    a / d * (unit * unit) + a % d * unit / d * unit + a % d * unit % d * unit / d =
      a * (unit * unit) / d := by
  have first := Nat.div_add_mod a d
  have second := Nat.div_add_mod (a % d * unit) d
  have third := Nat.div_add_mod (a % d * unit % d * unit) d
  have whole : a * (unit * unit) =
      d * (a / d * (unit * unit) + a % d * unit / d * unit + a % d * unit % d * unit / d) +
        a % d * unit % d * unit % d := by
    calc a * (unit * unit) = (d * (a / d) + a % d) * (unit * unit) := by rw [first]
      _ = d * (a / d) * (unit * unit) + a % d * unit * unit := by ring
      _ = d * (a / d) * (unit * unit) +
            (d * (a % d * unit / d) + a % d * unit % d) * unit := by rw [second]
      _ = d * (a / d * (unit * unit) + a % d * unit / d * unit) + a % d * unit % d * unit := by
          ring
      _ = d * (a / d * (unit * unit) + a % d * unit / d * unit) +
            (d * (a % d * unit % d * unit / d) + a % d * unit % d * unit % d) := by rw [third]
      _ = _ := by ring
  rw [whole, Nat.mul_add_div positive, Nat.div_eq_of_lt (Nat.mod_lt _ positive), Nat.add_zero]

theorem words_bounded {x : WideSreal} (high : x.sigHi < 2 ^ part) (low : x.sigLo < 2 ^ part) :
    (x.toSreal part).sig < 2 ^ (2 * part) := by
  have words := Nat.mul_le_mul_right (2 ^ part) (Nat.succ_le_of_lt high)
  rw [Nat.succ_mul, ← Nat.pow_add, ← Nat.two_mul] at words
  unfold toSreal
  dsimp only
  omega

theorem quotient_range {half a d : Nat} (isHalf : part = 2 * half) (some : 0 < half)
    (aLow : 2 ^ (2 * part - 1) ≤ a) (aHigh : a < 2 ^ (2 * part)) (dLow : 2 ^ (3 * half - 1) ≤ d)
    (dHigh : d ≤ 2 ^ (3 * half)) :
    2 ^ (3 * half - 1) ≤ a * 2 ^ part / d ∧ a * 2 ^ part / d < 2 ^ (3 * half + 1) ∧
      (2 ^ (3 * half) ≤ a * 2 ^ part / d ↔ d * 2 ^ half ≤ a) := by
  have positive : 0 < d := (Nat.two_pow_pos _).trans_le dLow
  refine ⟨?_, ?_, ?_⟩
  · rw [Nat.le_div_iff_mul_le positive]
    calc 2 ^ (3 * half - 1) * d ≤ 2 ^ (3 * half - 1) * 2 ^ (3 * half) :=
          Nat.mul_le_mul_left _ dHigh
      _ = 2 ^ (2 * part - 1) * 2 ^ part := by
          rw [← Nat.pow_add, ← Nat.pow_add]
          congr 1
          omega
      _ ≤ a * 2 ^ part := Nat.mul_le_mul_right _ aLow
  · rw [Nat.div_lt_iff_lt_mul positive]
    calc a * 2 ^ part < 2 ^ (2 * part) * 2 ^ part :=
          Nat.mul_lt_mul_of_pos_right aHigh (Nat.two_pow_pos part)
      _ = 2 ^ (3 * half + 1) * 2 ^ (3 * half - 1) := by
          rw [← Nat.pow_add, ← Nat.pow_add]
          congr 1
          omega
      _ ≤ 2 ^ (3 * half + 1) * d := Nat.mul_le_mul_left _ dLow
  · rw [Nat.le_div_iff_mul_le positive]
    have split : 2 ^ (3 * half) * d = d * 2 ^ half * 2 ^ part := by
      rw [isHalf, Nat.mul_comm, Nat.mul_assoc, ← Nat.pow_add]
      congr 2
      omega
    rw [split]
    exact Nat.mul_le_mul_right_iff (Nat.two_pow_pos part)

theorem divWords_eq {half d : Nat} (isHalf : part = 2 * half) (some : 0 < half) {a : WideSreal}
    (aLow : 2 ^ (2 * part - 1) ≤ (a.toSreal part).sig)
    (aHigh : (a.toSreal part).sig < 2 ^ (2 * part)) (dLow : 2 ^ (3 * half - 1) ≤ d)
    (dHigh : d ≤ 2 ^ (3 * half)) :
    divWords part a d = (a.toSreal part).sig * 2 ^ part / d := by
  have positive : 0 < d := (Nat.two_pow_pos _).trans_le dLow
  have quarters : part / 2 = half := by omega
  have isWord : 2 ^ part = 2 ^ half * 2 ^ half := by rw [isHalf, Nat.two_mul, Nat.pow_add]
  have moved : ∀ x, x % d * 2 ^ half < 2 ^ (2 * part) := by
    intro x
    calc x % d * 2 ^ half < d * 2 ^ half :=
          Nat.mul_lt_mul_of_pos_right (Nat.mod_lt x positive) (Nat.two_pow_pos half)
      _ ≤ 2 ^ (3 * half) * 2 ^ half := Nat.mul_le_mul_right _ dHigh
      _ = 2 ^ (2 * part) := by
          rw [← Nat.pow_add]
          congr 1
          omega
  have whole := quotient_by_halves (a.toSreal part).sig d (2 ^ half) positive
  obtain ⟨-, bounded, -⟩ := quotient_range isHalf some aLow aHigh dLow dHigh
  have fits : (a.toSreal part).sig * 2 ^ part / d < 2 ^ (2 * part) :=
    bounded.trans_le (Nat.pow_le_pow_right (by decide) (by omega))
  have isSig : a.sigHi <<< part + a.sigLo = (a.toSreal part).sig := by
    rw [Nat.shiftLeft_eq]
    rfl
  unfold divWords
  dsimp only
  rw [quarters, isSig, Nat.mod_eq_of_lt aHigh]
  simp only [Nat.shiftLeft_eq, Nat.mod_eq_of_lt (moved _)]
  rw [isWord, whole, ← isWord, Nat.mod_eq_of_lt fits]

theorem roundedDivisor_range {half : Nat} {b : WideSreal} (isHalf : part = 2 * half)
    (some : 0 < half) (low : 2 ^ (2 * part - 1) ≤ (b.toSreal part).sig)
    (high : (b.toSreal part).sig < 2 ^ (2 * part)) :
    2 ^ (3 * half - 1) ≤ roundedDivisor part b ∧ roundedDivisor part b ≤ 2 ^ (3 * half) := by
  have quarters : part / 2 = half := by omega
  have positive := Nat.two_pow_pos half
  have unit : 2 ^ (half - 1) < 2 ^ half := Nat.pow_lt_pow_right (by decide) (by omega)
  unfold roundedDivisor
  rw [quarters]
  constructor
  · rw [Nat.le_div_iff_mul_le positive, ← Nat.pow_add,
      show 3 * half - 1 + half = 2 * part - 1 by omega]
    exact low.trans (Nat.le_add_right _ _)
  · apply Nat.le_of_lt_succ
    rw [Nat.div_lt_iff_lt_mul positive, Nat.succ_mul, ← Nat.pow_add,
      show 3 * half + half = 2 * part by omega]
    exact Nat.add_lt_add high unit

theorem quotient_roundedExp {half quotient : Nat} (exp : Int) (isHalf : part = 2 * half)
    (some : 0 < half) (low : 2 ^ (3 * half - 1) ≤ quotient)
    (high : quotient < 2 ^ (3 * half + 1)) :
    roundedExp (2 * part) (quotient * 2 ^ part) exp =
      if 2 ^ (3 * half) ≤ quotient then exp - half + 2 * half + 1 else exp - half + 2 * half := by
  have positive : 0 < quotient := (Nat.two_pow_pos _).trans_le low
  obtain ⟨log, isLog⟩ : ∃ log, Nat.log 2 quotient = log := ⟨_, rfl⟩
  have wordsLog : Nat.log 2 (quotient * 2 ^ part) = log + part := by
    have words : Nat.log 2 (quotient * 2 ^ part + 0) = Nat.log 2 quotient + part :=
      log_words positive (Nat.two_pow_pos part)
    rwa [Nat.add_zero, isLog] at words
  have fullRange : quotient + 1 ≤ 2 ^ (log + 1) := by
    rw [← isLog]
    exact Nat.lt_pow_succ_log_self (by decide) quotient
  have logHigh : log ≤ 3 * half := by
    rw [← isLog]
    exact Nat.le_of_lt_succ (Nat.log_lt_of_lt_pow positive.ne' high)
  have notUp : ¬2 ^ (log + part + 1) ≤ quotient * 2 ^ part + 2 ^ (log + part - 2 * part) := by
    have room := Nat.mul_le_mul_right (2 ^ part) fullRange
    have unit : 2 ^ (log + part - 2 * part) < 2 ^ part :=
      Nat.pow_lt_pow_right (by decide) (by omega)
    rw [← Nat.pow_add, show log + 1 + part = log + part + 1 by omega, Nat.succ_mul] at room
    omega
  rw [roundedExp_of_log exp wordsLog, if_neg notUp]
  split
  · rename_i long
    have exact : log = 3 * half := by
      rw [← isLog]
      exact Nat.log_eq_of_pow_le_of_lt_pow long high
    omega
  · rename_i short
    have exact : log = 3 * half - 1 := by
      rw [← isLog]
      apply Nat.log_eq_of_pow_le_of_lt_pow low
      rw [show 3 * half - 1 + 1 = 3 * half by omega]
      exact Nat.not_le.mp short
    omega

theorem div_normalizes_iff {a b : WideSreal} (wide : 4 ≤ part) (even : 2 ∣ part)
    (narrow : part ≤ 2 ^ 27) (aNormalized : Normalized part a) (bNormalized : Normalized part b)
    (nonzero : b ≠ zero) : Normalizes part (div part a b) ↔ DivFits part a b := by
  obtain ⟨half, isHalf⟩ := even
  have isMaxExp : srealMaxExp = 536870911 := by decide
  have isIntMax : intMax = 2147483647 := by decide
  have top : 0 < srealMinSig part := Nat.two_pow_pos _
  have bLarge : srealMinSig part ≤ b.sigHi := by
    by_contra small
    exact nonzero (eq_zero_of_small bNormalized (Nat.not_le.mp small))
  rw [div, if_neg (Nat.not_lt.mpr bLarge)]
  split
  · rename_i small
    refine iff_of_true ⟨_, rfl, Or.inl rfl⟩ (Or.inl ?_)
    rw [eq_zero_of_small aNormalized small]
    rfl
  · rename_i notSmall
    have aLarge := Nat.not_lt.mp notSmall
    have aLow : 2 ^ (2 * part - 1) ≤ (a.toSreal part).sig :=
      words_not_small a.sigLo (by omega) aLarge
    have bLow : 2 ^ (2 * part - 1) ≤ (b.toSreal part).sig :=
      words_not_small b.sigLo (by omega) bLarge
    have aHigh := words_bounded aNormalized.sigHi_lt aNormalized.sigLo_lt
    have bHigh := words_bounded bNormalized.sigHi_lt bNormalized.sigLo_lt
    obtain ⟨dLow, dHigh⟩ := roundedDivisor_range isHalf (by omega) bLow bHigh
    obtain ⟨aExpLow, aExpHigh⟩ := (aNormalized.toSreal (by omega)).exp_range
    obtain ⟨bExpLow, bExpHigh⟩ := (bNormalized.toSreal (by omega)).exp_range
    obtain ⟨low, high, carries⟩ := quotient_range isHalf (by omega) aLow aHigh dLow dHigh
    rw [divisor_eq isHalf (by omega), divWords_eq isHalf (by omega) aLow aHigh dLow dHigh, DivFits,
      show part / 2 = half by omega]
    rw [toSreal] at aExpLow aExpHigh bExpLow bExpHigh
    generalize (a.toSreal part).sig * 2 ^ part / roundedDivisor part b = quotient at *
    have word : quotient < 2 ^ (2 * part) :=
      high.trans_le (Nat.pow_le_pow_right (by decide) (by omega))
    have large : srealMaxSig (2 * part) < quotient * 2 ^ part + 0 := by
      apply words_large
      apply Nat.sub_one_lt_of_le (Nat.two_pow_pos part)
      exact (Nat.pow_le_pow_right (by decide) (by omega)).trans low
    rw [normalizes_of_same (by omega) (normalize_same (by omega) word (Nat.two_pow_pos part)),
      toSreal, Sreal.normalize_large_iff (by omega) large, Nat.add_zero,
      quotient_roundedExp _ isHalf (by omega) low high, ← carries]
    dsimp only at *
    split <;> omega

def InitFits (part sig : Nat) (exp : Int) : Prop :=
  intMin ≤ exp - 16 ∧ Sreal.InitFits (2 * part) (sig * 2 ^ part) (exp - 16)

theorem init_normalizes_iff {sig : Nat} {exp : Int} (wide : 0 < part)
    (word : sig < 2 ^ (2 * part)) : Normalizes part (init part sig exp) ↔ InitFits part sig exp := by
  unfold init InitFits
  split
  · rename_i overflows
    refine iff_of_false ?_ fun fits => absurd fits.1 (Int.not_le.mpr overflows)
    rintro ⟨number, absent, -⟩
    cases absent
  · rename_i fits
    rw [normalizes_of_same wide (normalize_same wide word (Nat.two_pow_pos part)),
      ← Sreal.init_normalizes_iff (by omega)]
    exact ⟨fun normalizes => ⟨Int.not_lt.mp fits, normalizes⟩, And.right⟩

end GccCil.Gcc.WideSreal
