import GccCil.Expmed.Rtx
import GccCil.Gcc.LongDivision
import GccCil.Lib.ReciprocalDivision

/-!
# `choose_multiplier`

The multiplier for a division by `d`.  Two bounds of `2 ^ (n + lgup) / d` are
computed in two words each; a loop halves both as long as they stay apart.  The
invariant of the loop is that the bounds at shift count `s` are the rounded-down
quotients of `2 ^ (n + s)` and `2 ^ (n + s) + 2 ^ (n + s - precision)`, so the
upper one is a reciprocal of `d` in the sense of `Lib.Reciprocal`.
-/

namespace GccCil.Expmed

open Gcc.FoldConst (DoubleInt divideMagnitudes divideMagnitudes_spec divAndRoundDouble
  roundQuotient)

/-- Unsigned division of two-word numbers, `div_and_round_double` with
`TRUNC_DIV_EXPR`.  The numbers are given as low and high word. -/
structure DivAndRoundDouble (host : Nat) where
  run : Nat → Nat → Nat → Nat → Nat × Nat
  truncates : ∀ lnum hnum lden hden, lnum < 2 ^ host → hnum < 2 ^ host →
    lden < 2 ^ host → hden < 2 ^ host → 0 < lden + 2 ^ host * hden →
      (run lnum hnum lden hden).1 < 2 ^ host ∧ (run lnum hnum lden hden).2 < 2 ^ host ∧
      (run lnum hnum lden hden).1 + 2 ^ host * (run lnum hnum lden hden).2 =
        (lnum + 2 ^ host * hnum) / (lden + 2 ^ host * hden)

theorem quo_truncDiv {half : Nat} {num den : DoubleInt (2 * half)} (nonzero : den.toNat ≠ 0) :
    (divAndRoundDouble .truncDiv true num den).quo = divideMagnitudes num den := by
  have notZero : ¬ (den.high = 0#_ ∧ den.low = 0#_) := by
    rintro ⟨high, low⟩
    exact nonzero (by simp [DoubleInt.toNat, high, low])
  simp [divAndRoundDouble, roundQuotient, notZero]

/-- The function of `fold-const.c`. -/
def DivAndRoundDouble.foldConst (half : Nat) (positive : 0 < half) :
    DivAndRoundDouble (2 * half) where
  run := fun lnum hnum lden hden =>
    let quo := (divAndRoundDouble .truncDiv true ⟨.ofNat (2 * half) lnum, .ofNat _ hnum⟩
      ⟨.ofNat _ lden, .ofNat _ hden⟩).quo
    (quo.low.toNat, quo.high.toNat)
  truncates := by
    intro lnum hnum lden hden lnumFits hnumFits ldenFits hdenFits nonzero
    have value {low high : Nat} (lowFits : low < 2 ^ (2 * half)) (highFits : high < 2 ^ (2 * half)) :
        (⟨.ofNat _ low, .ofNat _ high⟩ : DoubleInt (2 * half)).toNat =
          low + 2 ^ (2 * half) * high := by
      simp [DoubleInt.toNat, Nat.mod_eq_of_lt lowFits, Nat.mod_eq_of_lt highFits]
    have den := value ldenFits hdenFits
    refine ⟨BitVec.isLt _, BitVec.isLt _, ?_⟩
    rw [quo_truncDiv (den.trans_ne (Nat.ne_of_gt nonzero)), ← den, ← value lnumFits hnumFits]
    exact divideMagnitudes_spec positive (den.trans_ne (Nat.ne_of_gt nonzero))

def ceilLog2 (host x : Nat) : Nat := (floorLog2 ((x + 2 ^ host - 1) % 2 ^ host) + 1).toNat

/-- `mlow` and `mhigh`, each as its two words. -/
structure Bounds where
  mlowLo : Nat
  mlowHi : Nat
  mhighLo : Nat
  mhighHi : Nat
  deriving DecidableEq

def halfLo (host lo hi : Nat) : Nat := ((hi <<< (host - 1)) % 2 ^ host) ||| (lo >>> 1)

def reduceTerms (host : Nat) : Nat → Bounds → Nat × Bounds
  | 0, bounds => (0, bounds)
  | postShift + 1, bounds =>
    let mlLo := halfLo host bounds.mlowLo bounds.mlowHi
    let mhLo := halfLo host bounds.mhighLo bounds.mhighHi
    if mhLo ≤ mlLo then (postShift + 1, bounds)
    else reduceTerms host postShift ⟨mlLo, 0, mhLo, 0⟩

/-- What `choose_multiplier` returns and stores. -/
structure Multiplier where
  /-- the returned most significant bit -/
  mh : Nat
  multiplier : Int
  postShift : Nat
  lgup : Nat
  deriving DecidableEq

/-- The words `nl` and `nh` of `2 ^ pow`. -/
def powWords (host pow : Nat) : Nat × Nat :=
  if host ≤ pow then (0, 2 ^ (pow - host) % 2 ^ host) else (2 ^ pow % 2 ^ host, 0)

/-- Set the bit `pow2` of a two-word number. -/
def orPow (host pow2 : Nat) (words : Nat × Nat) : Nat × Nat :=
  if host ≤ pow2 then (words.1, words.2 ||| 2 ^ (pow2 - host) % 2 ^ host)
  else (words.1 ||| 2 ^ pow2 % 2 ^ host, words.2)

/-- `mlow = 2 ^ pow / d` and `mhigh = (2 ^ pow + 2 ^ pow2) / d`, with the assertions
made about them. -/
def initialBounds (host : Nat) (divide : DivAndRoundDouble host) (d pow pow2 : Nat) :
    Option Bounds :=
  let low := powWords host pow
  let mlow := divide.run low.1 low.2 d 0
  let high := orPow host pow2 low
  let mhigh := divide.run high.1 high.2 d 0
  if (mhigh.2 = 0 ∨ (high.2 + 2 ^ host - d) % 2 ^ host < d) ∧
      (genInt host mhigh.2 ≤ 1 ∧ genInt host mlow.2 ≤ 1) ∧
      (genInt host mlow.2 < genInt host mhigh.2 ∨ mlow.2 = mhigh.2 ∧ mlow.1 < mhigh.1) then
    some ⟨mlow.1, mlow.2, mhigh.1, mhigh.2⟩
  else none

/-- `choose_multiplier`; `none` is a failed assertion. -/
def chooseMultiplier (host : Nat) (divide : DivAndRoundDouble host) (d n precision : Nat) :
    Option Multiplier := do
  let lgup := ceilLog2 host d
  guard (lgup ≤ n)
  let pow := n + lgup
  let pow2 := n + lgup - precision
  guard (pow ≠ 2 * host)
  let bounds ← initialBounds host divide d pow pow2
  let (postShift, bounds) := reduceTerms host lgup bounds
  if n < host then
    let mask := 2 ^ n - 1
    return ⟨if mask ≤ bounds.mhighLo then 1 else 0, genInt host (bounds.mhighLo &&& mask),
      postShift, lgup⟩
  else
    return ⟨bounds.mhighHi, genInt host bounds.mhighLo, postShift, lgup⟩

/-- The rounded-down value of `2 ^ (n + s) / d`. -/
def lowBound (n d s : Nat) : Nat := 2 ^ (n + s) / d

/-- The rounded-down value of `2 ^ (n + s) / d` enlarged by `2 ^ (s + e) / d`,
where `e` is `n - precision`. -/
def highBound (n e d s : Nat) : Nat := (2 ^ (n + s) + 2 ^ (s + e)) / d

theorem lowBound_half (n d s : Nat) : lowBound n d (s + 1) / 2 = lowBound n d s := by
  rw [lowBound, lowBound, Nat.div_div_eq_div_mul, Nat.mul_comm d 2, ← Nat.div_div_eq_div_mul,
    ← Nat.add_assoc, Nat.pow_succ, Nat.mul_div_cancel _ (by decide)]

theorem highBound_half (n e d s : Nat) : highBound n e d (s + 1) / 2 = highBound n e d s := by
  have doubled : 2 ^ (n + (s + 1)) + 2 ^ (s + 1 + e) = 2 * (2 ^ (n + s) + 2 ^ (s + e)) := by
    ring
  rw [highBound, highBound, Nat.div_div_eq_div_mul, Nat.mul_comm d 2, ← Nat.div_div_eq_div_mul,
    doubled, Nat.mul_div_cancel_left _ (by decide)]

theorem highBound_mono {n e d s s' : Nat} (le : s ≤ s') :
    highBound n e d s ≤ highBound n e d s' :=
  Nat.div_le_div_right (Nat.add_le_add
    (Nat.pow_le_pow_right (by decide) (Nat.add_le_add_left le n))
    (Nat.pow_le_pow_right (by decide) (Nat.add_le_add_right le e)))

/-- The two words of each bound at shift count `s`. -/
structure Represents (host n e d s : Nat) (bounds : Bounds) : Prop where
  mlow : bounds.mlowLo + 2 ^ host * bounds.mlowHi = lowBound n d s
  mhigh : bounds.mhighLo + 2 ^ host * bounds.mhighHi = highBound n e d s
  mlowLo : bounds.mlowLo < 2 ^ host
  mhighLo : bounds.mhighLo < 2 ^ host
  mlowHi : bounds.mlowHi ≤ 1
  mhighHi : bounds.mhighHi ≤ 1

theorem halfLo_eq {host lo hi : Nat} (positive : 0 < host) (loFits : lo < 2 ^ host)
    (hiFits : hi ≤ 1) : halfLo host lo hi = (lo + 2 ^ host * hi) / 2 := by
  obtain ⟨width, rfl⟩ := Nat.exists_eq_succ_of_ne_zero (Nat.pos_iff_ne_zero.mp positive)
  have power : 2 ^ (width + 1) = 2 * 2 ^ width := by rw [Nat.pow_succ, Nat.mul_comm]
  have carry : (hi <<< width) % 2 ^ (width + 1) = hi <<< width := by
    apply Nat.mod_eq_of_lt
    rw [Nat.shiftLeft_eq]
    have atMost : hi * 2 ^ width ≤ 1 * 2 ^ width := Nat.mul_le_mul_right _ hiFits
    have positivePower := Nat.two_pow_pos width
    omega
  have low : lo >>> 1 < 2 ^ width := by
    rw [Nat.shiftRight_eq_div_pow]
    omega
  rw [halfLo, Nat.succ_eq_add_one, Nat.add_sub_cancel, carry, ← Nat.shiftLeft_add_eq_or_of_lt low,
    Nat.shiftLeft_eq, Nat.shiftRight_eq_div_pow, power, Nat.mul_assoc, Nat.add_mul_div_left _ _
      (by decide : 0 < 2), Nat.mul_comm (2 ^ width) hi, Nat.pow_one, Nat.add_comm]

section Loop

variable {host n e d s : Nat} {bounds : Bounds}

theorem Represents.halfLow (represents : Represents host n e d (s + 1) bounds)
    (positive : 0 < host) : halfLo host bounds.mlowLo bounds.mlowHi = lowBound n d s := by
  rw [halfLo_eq positive represents.mlowLo represents.mlowHi, represents.mlow, lowBound_half]

theorem Represents.halfHigh (represents : Represents host n e d (s + 1) bounds)
    (positive : 0 < host) : halfLo host bounds.mhighLo bounds.mhighHi = highBound n e d s := by
  rw [halfLo_eq positive represents.mhighLo represents.mhighHi, represents.mhigh, highBound_half]

theorem Represents.half (represents : Represents host n e d (s + 1) bounds)
    (positive : 0 < host) : Represents host n e d s
      ⟨lowBound n d s, 0, highBound n e d s, 0⟩ := by
  have power : 2 ^ host = 2 * 2 ^ (host - 1) := by
    rw [← Nat.pow_succ', Nat.succ_eq_add_one, Nat.sub_add_cancel positive]
  have fits : ∀ lo hi : Nat, lo < 2 ^ host → hi ≤ 1 → (lo + 2 ^ host * hi) / 2 < 2 ^ host := by
    intro lo hi loFits hiFits
    have atMost : 2 ^ host * hi ≤ 2 ^ host * 1 := Nat.mul_le_mul_left _ hiFits
    omega
  refine ⟨by simp, by simp, ?_, ?_, Nat.zero_le _, Nat.zero_le _⟩
  · have bound := fits _ _ represents.mlowLo represents.mlowHi
    rw [represents.mlow, lowBound_half] at bound
    exact bound
  · have bound := fits _ _ represents.mhighLo represents.mhighHi
    rw [represents.mhigh, highBound_half] at bound
    exact bound

theorem reduceTerms_spec (positive : 0 < host) (represents : Represents host n e d s bounds)
    (apart : lowBound n d s < highBound n e d s) :
    (reduceTerms host s bounds).1 ≤ s ∧
      Represents host n e d (reduceTerms host s bounds).1 (reduceTerms host s bounds).2 ∧
      lowBound n d (reduceTerms host s bounds).1 <
        highBound n e d (reduceTerms host s bounds).1 := by
  induction s generalizing bounds with
  | zero => exact ⟨le_rfl, represents, apart⟩
  | succ s ih =>
    rw [reduceTerms, represents.halfLow positive, represents.halfHigh positive]
    by_cases stop : highBound n e d s ≤ lowBound n d s
    · rw [if_pos stop]
      exact ⟨le_rfl, represents, apart⟩
    · rw [if_neg stop]
      obtain ⟨bound, represents', apart'⟩ :=
        ih (represents.half positive) (Nat.lt_of_not_le stop)
      exact ⟨Nat.le_succ_of_le bound, represents', apart'⟩

theorem reduceTerms_lt (positive : 0 < host)
    (represents : Represents host n e d (s + 1) bounds)
    (apart : lowBound n d (s + 1) + 2 ≤ highBound n e d (s + 1)) :
    (reduceTerms host (s + 1) bounds).1 ≤ s := by
  have stillApart : ¬ highBound n e d s ≤ lowBound n d s := by
    rw [← highBound_half, ← lowBound_half]
    omega
  rw [reduceTerms, represents.halfLow positive, represents.halfHigh positive, if_neg stillApart]
  exact (reduceTerms_spec positive (represents.half positive) (Nat.lt_of_not_le stillApart)).1

end Loop

/-- A divisor with `l` significant bits, not a power of two, for a precision of
`n - e` bits. -/
structure DivisorFits (n e l d : Nat) : Prop where
  lower : 2 ^ l < 2 * d
  upper : d < 2 ^ l
  room : l < n
  precise : l + e ≤ n

namespace DivisorFits

variable {host n e l d : Nat} (fits : DivisorFits n e l d)

include fits

theorem positive : 0 < d := by
  have lower := fits.lower
  have power := Nat.two_pow_pos l
  omega

theorem log_pos : 0 < l := by
  apply Nat.pos_of_ne_zero
  intro zero
  have upper := fits.upper
  have positive := fits.positive
  rw [zero] at upper
  omega

theorem error_lt : e < n := by
  have precise := fits.precise
  have logPositive := fits.log_pos
  omega

theorem apart : lowBound n d l < highBound n e d l := by
  rw [lowBound, highBound]
  apply Nat.lt_of_succ_le
  rw [Nat.succ_eq_add_one, ← Nat.add_div_right _ fits.positive]
  apply Nat.div_le_div_right
  have atLeast : d ≤ 2 ^ (l + e) :=
    fits.upper.le.trans (Nat.pow_le_pow_right (by decide) (Nat.le_add_right l e))
  omega

theorem apart_two (imprecise : 0 < e) : lowBound n d l + 2 ≤ highBound n e d l := by
  rw [lowBound, highBound, ← Nat.add_mul_div_right _ _ fits.positive]
  apply Nat.div_le_div_right
  have power : 2 ^ (l + 1) ≤ 2 ^ (l + e) := Nat.pow_le_pow_right (by decide) (by omega)
  have doubled : 2 ^ (l + 1) = 2 * 2 ^ l := by rw [Nat.pow_succ, Nat.mul_comm]
  have upper := fits.upper
  omega

theorem two_le_gap : 2 ^ l + 2 ≤ 2 * d := by
  have lower := fits.lower
  have even : 2 ^ l = 2 * 2 ^ (l - 1) := by
    rw [← Nat.pow_succ', Nat.succ_eq_add_one, Nat.sub_add_cancel fits.log_pos]
  omega

theorem highBound_lt : highBound n e d l < 2 ^ (n + 1) := by
  rw [highBound, Nat.div_lt_iff_lt_mul fits.positive]
  have error : 2 ^ (l + e) ≤ 2 ^ n := Nat.pow_le_pow_right (by decide) fits.precise
  have scale : 0 < 2 ^ n := Nat.two_pow_pos n
  calc 2 ^ (n + l) + 2 ^ (l + e) < 2 ^ n * (2 ^ l + 2) := by
        rw [Nat.pow_add, Nat.mul_add]
        omega
    _ ≤ 2 ^ n * (2 * d) := Nat.mul_le_mul_left _ fits.two_le_gap
    _ = 2 ^ (n + 1) * d := by ring

theorem ceilLog2_eq (wide : n ≤ host) : ceilLog2 host d = l := by
  have positive := fits.positive
  have gap := fits.two_le_gap
  have upper := fits.upper
  have even : 2 ^ l = 2 * 2 ^ (l - 1) := by
    rw [← Nat.pow_succ', Nat.succ_eq_add_one, Nat.sub_add_cancel fits.log_pos]
  have inWord : 2 ^ l < 2 ^ host :=
    Nat.pow_lt_pow_right (by decide) (Nat.lt_of_lt_of_le fits.room wide)
  have predecessor : (d + 2 ^ host - 1) % 2 ^ host = d - 1 := by
    rw [show d + 2 ^ host - 1 = d - 1 + 2 ^ host by omega, Nat.add_mod_right,
      Nat.mod_eq_of_lt (by omega)]
  have nonzero : d - 1 ≠ 0 := by
    have power := Nat.two_pow_pos (l - 1)
    omega
  have logarithm : (d - 1).log2 = l - 1 := by
    rw [Nat.log2_eq_iff nonzero, Nat.sub_add_cancel fits.log_pos]
    omega
  have logPositive := fits.log_pos
  rw [ceilLog2, predecessor, floorLog2, if_neg nonzero, logarithm]
  omega

theorem powWords_spec (wide : n ≤ host) :
    (powWords host (n + l)).1 < 2 ^ host ∧ (powWords host (n + l)).2 < 2 ^ host ∧
      (powWords host (n + l)).1 + 2 ^ host * (powWords host (n + l)).2 = 2 ^ (n + l) := by
  have room := fits.room
  have positive := Nat.two_pow_pos host
  unfold powWords
  split
  case isTrue long =>
    have inWord : 2 ^ (n + l - host) < 2 ^ host := Nat.pow_lt_pow_right (by decide) (by omega)
    refine ⟨positive, Nat.mod_lt _ positive, ?_⟩
    rw [Nat.mod_eq_of_lt inWord, Nat.zero_add, ← Nat.pow_add]
    congr 1
    omega
  case isFalse short =>
    refine ⟨Nat.mod_lt _ positive, positive, ?_⟩
    rw [Nat.mod_eq_of_lt (Nat.pow_lt_pow_right (by decide) (by omega)), Nat.mul_zero,
      Nat.add_zero]

theorem powWords_host (widest : n = host) : powWords host (n + l) = (0, 2 ^ l) := by
  subst widest
  have room := fits.room
  rw [powWords, if_pos (Nat.le_add_right n l), Nat.add_sub_cancel_left,
    Nat.mod_eq_of_lt (Nat.pow_lt_pow_right (by decide) room)]

theorem orPow_spec (wide : n ≤ host) :
    (orPow host (l + e) (powWords host (n + l))).1 < 2 ^ host ∧
      (orPow host (l + e) (powWords host (n + l))).2 < 2 ^ host ∧
      (orPow host (l + e) (powWords host (n + l))).1 +
          2 ^ host * (orPow host (l + e) (powWords host (n + l))).2 =
        2 ^ (n + l) + 2 ^ (l + e) := by
  have room := fits.room
  have precise := fits.precise
  have logPositive := fits.log_pos
  obtain ⟨loFits, hiFits, value⟩ := fits.powWords_spec wide
  unfold orPow
  split
  case isTrue long =>
    -- the error reaches the high word only for the widest mode
    have widest : n = host := by omega
    have exponent : l + e - host = 0 := by omega
    have odd : 2 ^ l ||| 1 = 2 ^ l + 1 := by
      have disjoint := Nat.two_pow_add_eq_or_of_lt (Nat.one_lt_two_pow logPositive.ne') 1
      rw [Nat.mul_one] at disjoint
      exact disjoint.symm
    have one : 1 % 2 ^ host = 1 := Nat.mod_eq_of_lt (Nat.one_lt_two_pow (by omega))
    have successor : 2 ^ l + 1 < 2 ^ host := by
      have double : 2 ^ (l + 1) ≤ 2 ^ host := Nat.pow_le_pow_right (by decide) (by omega)
      have power : 2 ≤ 2 ^ l := Nat.le_self_pow logPositive.ne' 2
      rw [Nat.pow_succ] at double
      omega
    rw [fits.powWords_host widest, exponent, Nat.pow_zero, one, odd]
    refine ⟨Nat.two_pow_pos host, successor, ?_⟩
    have same : l + e = host := by omega
    rw [same, widest]
    ring
  case isFalse short =>
    have bit : 2 ^ (l + e) < 2 ^ host := Nat.pow_lt_pow_right (by decide) (by omega)
    rw [Nat.mod_eq_of_lt bit]
    refine ⟨Nat.or_lt_two_pow loFits bit, hiFits, ?_⟩
    have sum : (powWords host (n + l)).1 ||| 2 ^ (l + e) =
        (powWords host (n + l)).1 + 2 ^ (l + e) := by
      unfold powWords
      split
      · simp
      · have lower : 2 ^ (l + e) < 2 ^ (n + l) :=
          Nat.pow_lt_pow_right (by decide) (by have := fits.error_lt; omega)
        have disjoint := Nat.two_pow_add_eq_or_of_lt lower 1
        rw [Nat.mul_one] at disjoint
        rw [Nat.mod_eq_of_lt (Nat.pow_lt_pow_right (by decide) (by omega)), disjoint]
    rw [sum, ← value]
    ring

theorem divisor_lt (wide : n ≤ host) : d < 2 ^ host :=
  fits.upper.trans (Nat.pow_lt_pow_right (by decide) (Nat.lt_of_lt_of_le fits.room wide))

theorem run_spec (wide : n ≤ host) (divide : DivAndRoundDouble host) {words : Nat × Nat}
    (lo : words.1 < 2 ^ host) (hi : words.2 < 2 ^ host) :
    (divide.run words.1 words.2 d 0).1 < 2 ^ host ∧
      (divide.run words.1 words.2 d 0).1 + 2 ^ host * (divide.run words.1 words.2 d 0).2 =
        (words.1 + 2 ^ host * words.2) / d := by
  have positive := fits.positive
  obtain ⟨loFits, -, value⟩ := divide.truncates words.1 words.2 d 0 lo hi (fits.divisor_lt wide)
    (Nat.two_pow_pos host) (by omega)
  rw [Nat.mul_zero, Nat.add_zero] at value
  exact ⟨loFits, value⟩

theorem high_sub_lt (wide : n ≤ host) {lo hi quotientLo quotientHi : Nat} (loFits : lo < 2 ^ host)
    (value : lo + 2 ^ host * hi = 2 ^ (n + l) + 2 ^ (l + e))
    (quotient : quotientLo + 2 ^ host * quotientHi = highBound n e d l) :
    quotientHi = 0 ∨ (hi + 2 ^ host - d) % 2 ^ host < d := by
  have small := fits.highBound_lt
  rw [← quotient] at small
  rcases Nat.lt_or_eq_of_le wide with narrow | widest
  · left
    have inWord : 2 ^ (n + 1) ≤ 2 ^ host := Nat.pow_le_pow_right (by decide) narrow
    by_contra nonzero
    have atLeast : 2 ^ host * 1 ≤ 2 ^ host * quotientHi :=
      Nat.mul_le_mul_left _ (Nat.pos_of_ne_zero nonzero)
    omega
  · right
    have error : 2 ^ (l + e) ≤ 2 ^ host :=
      Nat.pow_le_pow_right (by decide) (widest ▸ fits.precise)
    rw [widest, Nat.pow_add] at value
    have atLeast : 2 ^ l ≤ hi := by
      apply Nat.le_of_lt_succ
      apply Nat.lt_of_mul_lt_mul_left (a := 2 ^ host)
      rw [Nat.mul_succ]
      have positive := Nat.two_pow_pos (l + e)
      omega
    have atMost : hi ≤ 2 ^ l + 1 := by
      apply Nat.le_of_mul_le_mul_left (c := 2 ^ host) _ (Nat.two_pow_pos host)
      rw [Nat.mul_add, Nat.mul_one]
      omega
    have upper := fits.upper
    have gap := fits.two_le_gap
    have divisor := fits.divisor_lt wide
    rw [show hi + 2 ^ host - d = hi - d + 2 ^ host by omega, Nat.add_mod_right,
      Nat.mod_eq_of_lt (by omega)]
    omega

theorem genInt_bit (wide : n ≤ host) {bit : Nat} (small : bit ≤ 1) : genInt host bit = bit := by
  apply Lib.wrap_eq_of_inRange
  rw [Lib.inRange_signed]
  have power : 2 ^ 2 ≤ 2 ^ host := Nat.pow_le_pow_right (by decide)
    (by have := fits.room; have := fits.log_pos; omega)
  omega

theorem initialBounds_spec (wide : n ≤ host) (divide : DivAndRoundDouble host) :
    ∃ bounds, initialBounds host divide d (n + l) (l + e) = some bounds ∧
      Represents host n e d l bounds := by
  obtain ⟨lowLo, lowHi, lowValue⟩ := fits.powWords_spec wide
  obtain ⟨highLo, highHi, highValue⟩ := fits.orPow_spec wide
  obtain ⟨mlowLo, mlow⟩ := fits.run_spec wide divide lowLo lowHi
  obtain ⟨mhighLo, mhigh⟩ := fits.run_spec wide divide highLo highHi
  rw [lowValue] at mlow
  rw [highValue] at mhigh
  have first := fits.high_sub_lt wide highLo highValue mhigh
  have apart := fits.apart
  have small := fits.highBound_lt
  have inWords : 2 ^ (n + 1) ≤ 2 ^ host * 2 := by
    rw [← Nat.pow_succ]
    exact Nat.pow_le_pow_right (by decide) (Nat.succ_le_succ wide)
  rw [initialBounds]
  generalize divide.run (powWords host (n + l)).1 (powWords host (n + l)).2 d 0 = low at *
  generalize divide.run (orPow host (l + e) (powWords host (n + l))).1
    (orPow host (l + e) (powWords host (n + l))).2 d 0 = high at *
  change low.1 + 2 ^ host * low.2 = lowBound n d l at mlow
  change high.1 + 2 ^ host * high.2 = highBound n e d l at mhigh
  have highBit : high.2 ≤ 1 := by
    by_contra large
    have atLeast : 2 ^ host * 2 ≤ 2 ^ host * high.2 := Nat.mul_le_mul_left _ (by omega)
    omega
  have lowBit : low.2 ≤ 1 := by
    by_contra large
    have atLeast : 2 ^ host * 2 ≤ 2 ^ host * low.2 := Nat.mul_le_mul_left _ (by omega)
    omega
  have ordered : low.2 < high.2 ∨ low.2 = high.2 ∧ low.1 < high.1 := by
    rcases Nat.lt_trichotomy low.2 high.2 with less | same | greater
    · exact .inl less
    · exact .inr ⟨same, by rw [same] at mlow; omega⟩
    · have atLeast : 2 ^ host * (high.2 + 1) ≤ 2 ^ host * low.2 := Nat.mul_le_mul_left _ greater
      rw [Nat.mul_add] at atLeast
      omega
  refine ⟨⟨low.1, low.2, high.1, high.2⟩, if_pos ⟨first, ?_, ?_⟩,
    ⟨mlow, mhigh, mlowLo, mhighLo, lowBit, highBit⟩⟩
  · rw [fits.genInt_bit wide highBit, fits.genInt_bit wide lowBit]
    omega
  · rw [fits.genInt_bit wide highBit, fits.genInt_bit wide lowBit]
    exact_mod_cast ordered

/-- The comparison with the mask in `choose_multiplier` is not strict; the mask
itself is never the multiplier. -/
theorem ne_mask {s m : Nat} (reciprocal : Lib.Reciprocal (2 ^ (n + s)) (2 ^ (s + e)) d m) :
    m ≠ 2 ^ n - 1 := by
  rintro rfl
  have above := reciprocal.above
  have within := reciprocal.within
  have scale := Nat.two_pow_pos n
  rw [Nat.sub_mul, Nat.one_mul, Nat.pow_add] at above
  rw [Nat.sub_mul, Nat.one_mul, Nat.pow_add 2 n s] at within
  have larger : 2 ^ s < d := by
    apply Nat.lt_of_mul_lt_mul_left (a := 2 ^ n)
    omega
  have strictlyBelow : s < l := by
    apply (Nat.pow_lt_pow_iff_right (a := 2) (by decide)).mp
    exact larger.trans fits.upper
  have next : 2 ^ n * (2 ^ s + 1) ≤ 2 ^ n * d := Nat.mul_le_mul_left _ larger
  rw [Nat.mul_add, Nat.mul_one] at next
  have halfDivisor : 2 ^ l ≤ 2 ^ (n - 1) :=
    Nat.pow_le_pow_right (by decide) (by have := fits.room; omega)
  have halfError : 2 ^ (s + e) ≤ 2 ^ (n - 1) :=
    Nat.pow_le_pow_right (by decide) (by have := fits.precise; omega)
  have even : 2 ^ n = 2 * 2 ^ (n - 1) := by
    rw [← Nat.pow_succ', Nat.succ_eq_add_one, Nat.sub_add_cancel (by have := fits.room; omega)]
  have upper := fits.upper
  omega

end DivisorFits

/-- What the callers rely on: the full multiplier `m` is a reciprocal of `d`, its
low `n` bits are stored and the bit above them is returned. -/
structure Chosen (host n e l d m : Nat) (result : Multiplier) : Prop where
  lgup : result.lgup = l
  postShift : result.postShift ≤ l
  reciprocal : Lib.Reciprocal (2 ^ (n + result.postShift)) (2 ^ (result.postShift + e)) d m
  multiplier : result.multiplier = genInt host (m % 2 ^ n)
  mh : result.mh = m / 2 ^ n
  bounded : m < 2 ^ (n + 1)
  fitting : 0 < e → m < 2 ^ n

theorem chooseMultiplier_spec {host n e l d : Nat} (fits : DivisorFits n e l d)
    (wide : n ≤ host) (divide : DivAndRoundDouble host) :
    ∃ result m, chooseMultiplier host divide d n (n - e) = some result ∧
      Chosen host n e l d m result := by
  have hostPositive : 0 < host := by
    have room := fits.room
    omega
  obtain ⟨bounds, initial, represents⟩ := fits.initialBounds_spec wide divide
  obtain ⟨below, reduced, apart⟩ := reduceTerms_spec hostPositive represents fits.apart
  have fitting : 0 < e → highBound n e d (reduceTerms host l bounds).1 < 2 ^ n := by
    intro imprecise
    obtain ⟨k, rfl⟩ := Nat.exists_eq_add_one_of_ne_zero fits.log_pos.ne'
    have once := reduceTerms_lt hostPositive represents (fits.apart_two imprecise)
    apply Nat.lt_of_le_of_lt (highBound_mono once)
    rw [← highBound_half]
    apply Nat.div_lt_of_lt_mul
    rw [Nat.mul_comm, ← Nat.pow_succ]
    exact fits.highBound_lt
  have bounded : highBound n e d (reduceTerms host l bounds).1 < 2 ^ (n + 1) :=
    Nat.lt_of_le_of_lt (highBound_mono below) fits.highBound_lt
  have reciprocal := Lib.Reciprocal.of_div_lt fits.positive apart
  have notMask := fits.ne_mask reciprocal
  have precision : n + l - (n - e) = l + e := by
    have := fits.error_lt
    omega
  have room := fits.room
  have doubled : 2 ^ (n + 1) = 2 * 2 ^ n := by rw [Nat.pow_succ, Nat.mul_comm]
  have chosen : ∀ mh multiplier, mh = highBound n e d (reduceTerms host l bounds).1 / 2 ^ n →
      multiplier = genInt host (highBound n e d (reduceTerms host l bounds).1 % 2 ^ n) →
      Chosen host n e l d (highBound n e d (reduceTerms host l bounds).1)
        ⟨mh, multiplier, (reduceTerms host l bounds).1, l⟩ :=
    fun mh multiplier mhEq multiplierEq =>
      ⟨rfl, below, reciprocal, multiplierEq, mhEq, bounded, fitting⟩
  change highBound n e d (reduceTerms host l bounds).1 ≠ 2 ^ n - 1 at notMask
  have mhigh := reduced.mhigh
  have mhighLo := reduced.mhighLo
  unfold chooseMultiplier
  simp only [fits.ceilLog2_eq wide, precision, initial, guard, if_pos room.le,
    if_pos (show n + l ≠ 2 * host by omega), Option.bind_eq_bind, Option.pure_def,
    Option.bind_some]
  generalize highBound n e d (reduceTerms host l bounds).1 = m at *
  by_cases narrow : n < host
  · have inWord : 2 ^ (n + 1) ≤ 2 ^ host := Nat.pow_le_pow_right (by decide) narrow
    have low : (reduceTerms host l bounds).2.mhighLo = m := by
      have hi : (reduceTerms host l bounds).2.mhighHi = 0 := by
        by_contra nonzero
        have atLeast := Nat.mul_le_mul_left (2 ^ host) (Nat.pos_of_ne_zero nonzero)
        omega
      rw [hi] at mhigh
      omega
    rw [if_pos narrow, low]
    refine ⟨_, m, rfl, chosen _ _ ?_ ?_⟩
    · split
      case isTrue large =>
        symm
        apply Nat.div_eq_of_lt_le
        · omega
        · omega
      case isFalse small =>
        symm
        apply Nat.div_eq_of_lt
        omega
    · rw [Nat.and_two_pow_sub_one_eq_mod]
  · have widest : n = host := by omega
    subst widest
    rw [if_neg narrow]
    refine ⟨_, m, rfl, chosen _ _ ?_ ?_⟩
    · rw [← mhigh, Nat.add_mul_div_left _ _ (Nat.two_pow_pos n), Nat.div_eq_of_lt mhighLo,
        Nat.zero_add]
    · rw [← mhigh, Nat.add_mul_mod_self_left, Nat.mod_eq_of_lt mhighLo]

end GccCil.Expmed
