import GccCil.Gcc.DoubleInt

/-!
# Shifts and rotates of two-word integers

`lshift_double`, `rshift_double`, `lrotate_double` and `rrotate_double` of
`fold-const.c`.  A constant of a type of `prec` bits is kept as the sign
extension of a `prec`-bit number; every function here is described by the bits
of its result.
-/

namespace GccCil.Gcc.FoldConst

open DoubleInt

variable {w : Nat}

/-- The end of both shifts: all bits from `bits` on become copies of the sign. -/
def extendDouble (x : DoubleInt w) (bits : Nat) (signmask : BitVec w) : DoubleInt w :=
  if 2 * w ≤ bits then x
  else if w ≤ bits then
    { x with high := (x.high &&& ~~~(BitVec.allOnes w <<< (bits - w))) |||
        signmask <<< (bits - w) }
  else
    { low := (x.low &&& ~~~(BitVec.allOnes w <<< bits)) ||| signmask <<< bits, high := signmask }

/-- The count that a shift uses; `truncated` is `SHIFT_COUNT_TRUNCATED`. -/
def shiftCount (truncated : Bool) (count prec : Nat) : Nat :=
  if truncated then count % prec else count

/-- `rshift_double`, whose count must not be negative. -/
def rshiftDouble (truncated : Bool) (x : DoubleInt w) (count prec : Nat) (arith : Bool) :
    DoubleInt w :=
  let signmask := if arith then -(x.high >>> (w - 1)) else 0#w
  let count := shiftCount truncated count prec
  let shifted : DoubleInt w :=
    if 2 * w ≤ count then { low := 0#w, high := 0#w }
    else if w ≤ count then { low := x.high >>> (count - w), high := 0#w }
    else
      { low := x.low >>> count ||| (x.high <<< (w - count - 1)) <<< 1, high := x.high >>> count }
  if prec ≤ count then { low := signmask, high := signmask }
  else extendDouble shifted (prec - count) signmask

/-- `lshift_double`.  The count is not the minimum of its type, which has no
negation. -/
def lshiftDouble (truncated : Bool) (x : DoubleInt w) (count : Int) (prec : Nat) (arith : Bool) :
    DoubleInt w :=
  if count < 0 then rshiftDouble truncated x (-count).toNat prec arith
  else
    let count := shiftCount truncated count.toNat prec
    let shifted : DoubleInt w :=
      if 2 * w ≤ count then { low := 0#w, high := 0#w }
      else if w ≤ count then { low := 0#w, high := x.low <<< (count - w) }
      else
        { low := x.low <<< count, high := x.high <<< count ||| (x.low >>> (w - count - 1)) >>> 1 }
    let signBit :=
      if w < prec then shifted.high >>> (prec - w - 1) else shifted.low >>> (prec - 1)
    extendDouble shifted prec (-(signBit &&& 1#w))

/-- The count of a rotate in the range of the precision.  The remainder is
signed where `HOST_WIDE_INT` is wider than the precision's `unsigned int`, and
unsigned where it is not. -/
def rotateCount (w : Nat) (wide : Bool) (count : Int) (prec : Nat) : Nat :=
  let count := if wide then count.tmod prec else count % (2 ^ w : Nat) % prec
  (if count < 0 then count + prec else count).toNat

def orDouble (x y : DoubleInt w) : DoubleInt w :=
  { low := x.low ||| y.low, high := x.high ||| y.high }

def lrotateDouble (truncated wide : Bool) (x : DoubleInt w) (count : Int) (prec : Nat) :
    DoubleInt w :=
  let count := rotateCount w wide count prec
  orDouble (lshiftDouble truncated x count prec false)
    (rshiftDouble truncated x (prec - count) prec false)

def rrotateDouble (truncated wide : Bool) (x : DoubleInt w) (count : Int) (prec : Nat) :
    DoubleInt w :=
  let count := rotateCount w wide count prec
  orDouble (rshiftDouble truncated x count prec false)
    (lshiftDouble truncated x (prec - count : Nat) prec false)

/-- Bit `i` of a constant. -/
def bit (x : DoubleInt w) (i : Nat) : Bool :=
  if i < w then x.low.getLsbD i else x.high.getLsbD (i - w)

theorem testBit_toNat (x : DoubleInt w) (i : Nat) : x.toNat.testBit i = bit x i := by
  rw [DoubleInt.toNat, Nat.add_comm, Nat.testBit_two_pow_mul_add _ x.low.isLt]
  rfl

theorem bit_of_le (x : DoubleInt w) {i : Nat} (outside : 2 * w ≤ i) : bit x i = false := by
  rw [bit, if_neg (by omega)]
  exact BitVec.getLsbD_of_ge _ _ (by omega)

theorem eq_of_bit_eq {x y : DoubleInt w} (same : ∀ i < 2 * w, bit x i = bit y i) : x = y := by
  apply toNat_injective
  apply Nat.eq_of_testBit_eq
  intro i
  rw [testBit_toNat, testBit_toNat]
  rcases Nat.lt_or_ge i (2 * w) with inside | outside
  · exact same i inside
  · rw [bit_of_le x outside, bit_of_le y outside]

theorem bit_ofInt (i : Int) (j : Nat) :
    bit (ofInt w i) j = (BitVec.ofInt (2 * w) i).getLsbD j := by
  rw [← testBit_toNat, ← BitVec.testBit_toNat, BitVec.toNat_ofInt]
  congr 1
  zify
  rw [toNat_ofInt]
  exact (Int.toNat_of_nonneg (Int.emod_nonneg _ (by positivity))).symm

variable {prec : Nat}

/-- The sign extension of a number of `prec` bits. -/
def signExtended (w : Nat) (v : BitVec prec) : DoubleInt w := ofInt w v.toInt

/-- The zero extension of a number of `prec` bits. -/
def zeroExtended (w : Nat) (v : BitVec prec) : DoubleInt w := ofInt w v.toNat

theorem bit_signExtended (v : BitVec prec) {i : Nat} (inside : i < 2 * w) :
    bit (signExtended w v) i = if i < prec then v.getLsbD i else v.msb := by
  rw [signExtended, bit_ofInt, ← BitVec.signExtend, BitVec.getLsbD_signExtend]
  simp [inside]

theorem bit_zeroExtended (v : BitVec prec) {i : Nat} (inside : i < 2 * w) :
    bit (zeroExtended w v) i = v.getLsbD i := by
  rw [zeroExtended, bit_ofInt, BitVec.ofInt_natCast, BitVec.getLsbD_ofNat,
    BitVec.testBit_toNat, decide_eq_true inside, Bool.true_and]

theorem bit_orDouble (x y : DoubleInt w) (i : Nat) :
    bit (orDouble x y) i = (bit x i || bit y i) := by
  unfold bit orDouble
  split <;> exact BitVec.getLsbD_or

theorem orDouble_comm (x y : DoubleInt w) : orDouble x y = orDouble y x := by
  rw [orDouble, orDouble, BitVec.or_comm, BitVec.or_comm x.high]

def repeated (w : Nat) (sign : Bool) : BitVec w := if sign then BitVec.allOnes w else 0#w

theorem getLsbD_repeated (sign : Bool) {i : Nat} (inside : i < w) :
    (repeated w sign).getLsbD i = sign := by
  cases sign <;> simp [repeated, inside]

theorem getLsbD_extend (x : BitVec w) (bits : Nat) (sign : Bool) {i : Nat} (inside : i < w) :
    ((x &&& ~~~(BitVec.allOnes w <<< bits)) ||| repeated w sign <<< bits).getLsbD i =
      if i < bits then x.getLsbD i else sign := by
  simp only [BitVec.getLsbD_or, BitVec.getLsbD_and, BitVec.getLsbD_not, BitVec.getLsbD_shiftLeft,
    BitVec.getLsbD_allOnes, inside, decide_true, Bool.true_and]
  by_cases below : i < bits
  · simp [below]
  · have shifted : i - bits < w := by omega
    rw [getLsbD_repeated sign shifted]
    simp [below, shifted]

theorem bit_extendDouble (x : DoubleInt w) (bits : Nat) (sign : Bool) {i : Nat}
    (inside : i < 2 * w) :
    bit (extendDouble x bits (repeated w sign)) i = if i < bits then bit x i else sign := by
  rw [extendDouble]
  by_cases long : 2 * w ≤ bits
  · rw [if_pos long, if_pos (by omega)]
  rw [if_neg long]
  by_cases high : w ≤ bits
  · rw [if_pos high, bit, bit]
    by_cases low : i < w
    · rw [if_pos low, if_pos low, if_pos (by omega)]
    · rw [if_neg low, if_neg low, getLsbD_extend _ _ _ (by omega)]
      simp only [show i - w < bits - w ↔ i < bits by omega]
  · rw [if_neg high, bit, bit]
    by_cases low : i < w
    · rw [if_pos low, if_pos low]
      exact getLsbD_extend _ _ _ low
    · rw [if_neg low, if_neg low, if_neg (show ¬ i < bits by omega)]
      exact getLsbD_repeated _ (by omega)

theorem neg_lowest_bit (positive : 0 < w) (x : BitVec w) :
    -(x &&& 1#w) = repeated w (x.getLsbD 0) := by
  have lowest : x &&& 1#w = if x.getLsbD 0 then 1#w else 0#w := by
    apply BitVec.eq_of_getLsbD_eq
    intro i inside
    rw [BitVec.getLsbD_and, BitVec.getLsbD_one]
    rcases Nat.eq_zero_or_pos i with rfl | above
    · cases x.getLsbD 0 <;> simp [positive]
    · cases x.getLsbD 0 <;> simp [show ¬ (i = 0) by omega]
  rw [lowest, repeated]
  cases x.getLsbD 0 with
  | true => exact BitVec.neg_one_eq_allOnes
  | false => exact BitVec.neg_zero w

theorem neg_top_bit (positive : 0 < w) (x : BitVec w) :
    -(x >>> (w - 1)) = repeated w x.msb := by
  have lowest : x >>> (w - 1) = (x >>> (w - 1)) &&& 1#w := by
    apply BitVec.eq_of_getLsbD_eq
    intro i inside
    rw [BitVec.getLsbD_and, BitVec.getLsbD_one, BitVec.getLsbD_ushiftRight]
    rcases Nat.eq_zero_or_pos i with rfl | above
    · simp [positive]
    · rw [BitVec.getLsbD_of_ge _ _ (by omega), Bool.false_and]
  rw [lowest, neg_lowest_bit positive, BitVec.getLsbD_ushiftRight, BitVec.msb_eq_getLsbD_last,
    Nat.add_zero]

theorem bit_shiftRight (x : DoubleInt w) (count i : Nat) :
    bit (if 2 * w ≤ count then { low := 0#w, high := 0#w }
      else if w ≤ count then { low := x.high >>> (count - w), high := 0#w }
      else { low := x.low >>> count ||| (x.high <<< (w - count - 1)) <<< 1,
             high := x.high >>> count } : DoubleInt w) i = bit x (i + count) := by
  by_cases far : 2 * w ≤ count
  · rw [if_pos far, bit_of_le x (by omega), bit]
    split <;> exact BitVec.getLsbD_zero
  rw [if_neg far]
  by_cases long : w ≤ count
  · rw [if_pos long, bit, bit, if_neg (show ¬ i + count < w by omega)]
    split
    · rw [BitVec.getLsbD_ushiftRight]
      congr 1
      omega
    · rw [BitVec.getLsbD_zero, BitVec.getLsbD_of_ge _ _ (by omega)]
  · rw [if_neg long, bit, bit]
    by_cases low : i < w
    · rw [if_pos low]
      rw [BitVec.getLsbD_or, BitVec.getLsbD_ushiftRight, BitVec.getLsbD_shiftLeft,
        BitVec.getLsbD_shiftLeft, Nat.add_comm count i]
      by_cases still : i + count < w
      · rw [if_pos still]
        by_cases first : i < 1
        · simp [first]
        · simp [show i - 1 < w - count - 1 by omega]
      · rw [if_neg still, BitVec.getLsbD_of_ge _ _ (by omega), Bool.false_or]
        simp only [low, show ¬ i < 1 by omega, show i - 1 < w by omega,
          show ¬ i - 1 < w - count - 1 by omega, decide_true, decide_false, Bool.not_false,
          Bool.true_and]
        congr 1
        omega
    · rw [if_neg low, if_neg (by omega), BitVec.getLsbD_ushiftRight]
      congr 1
      omega

theorem bit_shiftLeft (positive : 0 < w) (x : DoubleInt w) (count i : Nat) (inside : i < 2 * w) :
    bit (if 2 * w ≤ count then { low := 0#w, high := 0#w }
      else if w ≤ count then { low := 0#w, high := x.low <<< (count - w) }
      else { low := x.low <<< count,
             high := x.high <<< count ||| (x.low >>> (w - count - 1)) >>> 1 } : DoubleInt w) i =
      (decide (count ≤ i) && bit x (i - count)) := by
  by_cases far : 2 * w ≤ count
  · rw [if_pos far, decide_eq_false (by omega), Bool.false_and, bit]
    split <;> exact BitVec.getLsbD_zero
  rw [if_neg far]
  by_cases long : w ≤ count
  · rw [if_pos long, bit]
    by_cases low : i < w
    · rw [if_pos low, decide_eq_false (by omega), Bool.false_and]
      exact BitVec.getLsbD_zero
    · rw [if_neg low, BitVec.getLsbD_shiftLeft, bit, if_pos (show i - count < w by omega)]
      by_cases above : count ≤ i
      · simp only [above, show i - w < w by omega, show ¬ i - w < count - w by omega,
          decide_true, decide_false, Bool.not_false, Bool.true_and]
        congr 1
        omega
      · simp [above, show i - w < count - w by omega]
  · rw [if_neg long, bit, bit]
    by_cases low : i < w
    · rw [if_pos low, if_pos (show i - count < w by omega), BitVec.getLsbD_shiftLeft]
      by_cases above : count ≤ i
      · simp [above, low]
      · simp [above, Nat.lt_of_not_le above]
    · rw [if_neg low, BitVec.getLsbD_or, BitVec.getLsbD_shiftLeft, BitVec.getLsbD_ushiftRight,
        BitVec.getLsbD_ushiftRight, decide_eq_true (show count ≤ i by omega), Bool.true_and]
      by_cases still : i - count < w
      · rw [if_pos still]
        simp only [show i - w < count by omega, decide_true, Bool.not_true, Bool.and_false,
          Bool.false_and, Bool.false_or]
        congr 1
        omega
      · rw [if_neg still, BitVec.getLsbD_of_ge x.low _ (by omega), Bool.or_false]
        simp only [show i - w < w by omega, show ¬ i - w < count by omega, decide_true,
          decide_false, Bool.not_false, Bool.true_and]
        congr 1
        omega

theorem bit_rshiftDouble (positive : 0 < w) (truncated : Bool) (x : DoubleInt w)
    (count prec : Nat) (arith : Bool) {i : Nat} (inside : i < 2 * w) :
    bit (rshiftDouble truncated x count prec arith) i =
      if i + shiftCount truncated count prec < prec then
        bit x (i + shiftCount truncated count prec)
      else arith && x.high.msb := by
  have signmask : (if arith then -(x.high >>> (w - 1)) else 0#w) =
      repeated w (arith && x.high.msb) := by
    cases arith with
    | true => rw [if_pos rfl, neg_top_bit positive, Bool.true_and]
    | false => rfl
  rw [rshiftDouble]
  simp only [signmask]
  generalize shiftCount truncated count prec = places
  by_cases beyond : prec ≤ places
  · rw [if_pos beyond, if_neg (by omega), bit]
    split <;> exact getLsbD_repeated _ (by omega)
  · rw [if_neg beyond, bit_extendDouble _ _ _ inside, bit_shiftRight]
    simp only [show i < prec - places ↔ i + places < prec by omega]

theorem bit_lshiftDouble (positive : 0 < w) (truncated : Bool) (x : DoubleInt w) {count : Int}
    (nonneg : 0 ≤ count) {prec : Nat} (precPositive : 0 < prec) (fits : prec ≤ 2 * w)
    (arith : Bool) {i : Nat} (inside : i < 2 * w) :
    bit (lshiftDouble truncated x count prec arith) i =
      (decide (shiftCount truncated count.toNat prec ≤ min i (prec - 1)) &&
        bit x (min i (prec - 1) - shiftCount truncated count.toNat prec)) := by
  rw [lshiftDouble, if_neg (not_lt.mpr nonneg)]
  generalize shiftCount truncated count.toNat prec = places
  dsimp only
  rw [neg_lowest_bit positive, bit_extendDouble _ _ _ inside]
  have top (shifted : DoubleInt w) :
      (if w < prec then shifted.high >>> (prec - w - 1)
        else shifted.low >>> (prec - 1)).getLsbD 0 = bit shifted (prec - 1) := by
    rw [bit]
    by_cases long : w < prec
    · rw [if_pos long, if_neg (by omega), BitVec.getLsbD_ushiftRight]
      congr 1
      omega
    · rw [if_neg long, if_pos (by omega), BitVec.getLsbD_ushiftRight, Nat.add_zero]
  rw [top, bit_shiftLeft positive x places i inside,
    bit_shiftLeft positive x places (prec - 1) (by omega)]
  by_cases low : i < prec
  · rw [if_pos low, Nat.min_eq_left (by omega)]
  · rw [if_neg low, Nat.min_eq_right (by omega)]

section Numbers

variable (positive : 0 < w) (precPositive : 0 < prec) (fits : prec ≤ 2 * w) (truncated : Bool)
  (v : BitVec prec)
include positive precPositive fits

theorem msb_signExtended : (signExtended w v).high.msb = v.msb := by
  have last : bit (signExtended w v) (2 * w - 1) = (signExtended w v).high.msb := by
    rw [bit, if_neg (by omega), BitVec.msb_eq_getLsbD_last]
    congr 1
    omega
  rw [← last, bit_signExtended v (by omega), BitVec.msb_eq_getLsbD_last]
  split
  · congr 1
    omega
  · rfl

theorem lshiftDouble_number {count : Int} (nonneg : 0 ≤ count) (arith : Bool) :
    lshiftDouble truncated (signExtended w v) count prec arith =
      signExtended w (v <<< shiftCount truncated count.toNat prec) := by
  apply eq_of_bit_eq
  intro i inside
  rw [bit_lshiftDouble positive truncated _ nonneg precPositive fits arith inside,
    bit_signExtended _ inside, bit_signExtended v (by omega)]
  generalize shiftCount truncated count.toNat prec = places
  rw [if_pos (show min i (prec - 1) - places < prec by omega), BitVec.msb_eq_getLsbD_last,
    BitVec.getLsbD_shiftLeft, BitVec.getLsbD_shiftLeft]
  by_cases low : i < prec
  · rw [if_pos low, Nat.min_eq_left (by omega)]
    by_cases above : places ≤ i
    · simp [above, low]
    · simp [above, Nat.lt_of_not_le above]
  · rw [if_neg low, Nat.min_eq_right (by omega)]
    by_cases above : places ≤ prec - 1
    · simp [above, precPositive]
    · simp [above, Nat.lt_of_not_le above]

theorem rshiftDouble_arithmetic (count : Nat) :
    rshiftDouble truncated (signExtended w v) count prec true =
      signExtended w (v.sshiftRight (shiftCount truncated count prec)) := by
  apply eq_of_bit_eq
  intro i inside
  rw [bit_rshiftDouble positive truncated _ count prec true inside, Bool.true_and,
    msb_signExtended positive precPositive fits v, bit_signExtended _ inside,
    BitVec.getLsbD_sshiftRight, BitVec.msb_sshiftRight]
  generalize shiftCount truncated count prec = places
  by_cases within : i + places < prec
  · rw [if_pos within, bit_signExtended v (by omega), if_pos within, if_pos (by omega),
      if_pos (by omega), decide_eq_false (by omega), Bool.not_false, Bool.true_and,
      Nat.add_comm i places]
  · rw [if_neg within]
    by_cases low : i < prec
    · rw [if_pos low, if_neg (by omega), decide_eq_false (by omega), Bool.not_false,
        Bool.true_and]
    · rw [if_neg low]

omit precPositive in
theorem rshiftDouble_logical (count : Nat) :
    rshiftDouble truncated (signExtended w v) count prec false =
      zeroExtended w (v >>> shiftCount truncated count prec) := by
  apply eq_of_bit_eq
  intro i inside
  rw [bit_rshiftDouble positive truncated _ count prec false inside, Bool.false_and,
    bit_zeroExtended _ inside, BitVec.getLsbD_ushiftRight, Nat.add_comm i]
  generalize shiftCount truncated count prec = places
  by_cases within : places + i < prec
  · rw [if_pos within, bit_signExtended v (by omega), if_pos within]
  · rw [if_neg within, BitVec.getLsbD_of_ge _ _ (by omega)]

omit positive fits in
theorem rotateCount_eq {wide : Bool} {count : Int}
    (representable : wide = true ∨ 0 ≤ count ∧ count < (2 ^ w : Nat)) :
    rotateCount w wide count prec = (count % prec).toNat := by
  have modulus : (0 : Int) < prec := by omega
  rw [rotateCount]
  congr 1
  cases wide with
  | true =>
    have division := Int.mul_tdiv_add_tmod count prec
    have bounds := abs_lt.mp (show |count.tmod prec| < prec by
      rw [← Int.natCast_natAbs, Int.natAbs_tmod, Int.natAbs_natCast]
      exact_mod_cast Nat.mod_lt _ precPositive)
    have residue (rest factor : Int) (nonneg : 0 ≤ rest) (below : rest < prec)
        (split : count = rest + prec * factor) : rest = count % prec := by
      rw [split, Int.add_mul_emod_self_left, Int.emod_eq_of_lt nonneg below]
    simp only [if_true]
    split
    · exact residue _ (count.tdiv prec - 1) (by omega) (by omega) (by linarith)
    · exact residue _ (count.tdiv prec) (by omega) (by omega) (by linarith)
  | false =>
    obtain ⟨nonneg, below⟩ := representable.resolve_left (by decide)
    simp only [Bool.false_eq_true, if_false]
    rw [Int.emod_eq_of_lt nonneg below, if_neg (by
      have := Int.emod_nonneg count (ne_of_gt modulus)
      omega)]

omit positive fits precPositive in
theorem shiftCount_of_lt {count : Nat} (below : count < prec) :
    shiftCount truncated count prec = count := by
  rw [shiftCount]
  split
  · exact Nat.mod_eq_of_lt below
  · rfl

omit positive fits precPositive in
theorem orDouble_number {a b result : BitVec prec}
    (bits : ∀ i < prec, (a.getLsbD i || b.getLsbD i) = result.getLsbD i)
    (sign : a.msb = result.msb) :
    orDouble (signExtended w a) (zeroExtended w b) = signExtended w result := by
  apply eq_of_bit_eq
  intro i inside
  rw [bit_orDouble, bit_zeroExtended _ inside, bit_signExtended _ inside,
    bit_signExtended _ inside]
  split
  · rename_i low
    exact bits i low
  · rename_i high
    rw [BitVec.getLsbD_of_ge b i (by omega), Bool.or_false, sign]

theorem lrotateDouble_number (wide : Bool) (count : Int)
    (inRange : rotateCount w wide count prec < prec) :
    lrotateDouble truncated wide (signExtended w v) count prec =
      signExtended w (v.rotateLeft (rotateCount w wide count prec)) := by
  rw [lrotateDouble]
  generalize rotateCount w wide count prec = places at *
  rw [lshiftDouble_number positive precPositive fits truncated v (Int.natCast_nonneg _),
    rshiftDouble_logical positive fits, Int.toNat_natCast, shiftCount_of_lt truncated inRange]
  apply orDouble_number
  · intro i inside
    rw [BitVec.getLsbD_rotateLeft_of_le inRange, BitVec.getLsbD_shiftLeft,
      BitVec.getLsbD_ushiftRight]
    by_cases low : i < places
    · rw [shiftCount_of_lt truncated (by omega)]
      simp [low]
    · have same : (decide (i < prec) && !decide (i < places) && v.getLsbD (i - places)) =
          v.getLsbD (i - places) := by
        simp [inside, low]
      rw [same]
      rcases Nat.eq_zero_or_pos places with rfl | moved
      · cases truncated <;> simp [shiftCount, inside]
      · rw [shiftCount_of_lt truncated (by omega), BitVec.getLsbD_of_ge v (_ + i) (by omega)]
        simp [low, inside]
  · rw [BitVec.msb_eq_getLsbD_last, BitVec.msb_eq_getLsbD_last,
      BitVec.getLsbD_rotateLeft_of_le inRange, BitVec.getLsbD_shiftLeft]
    simp [show ¬ prec - 1 < places by omega]

theorem rrotateDouble_number (wide : Bool) (count : Int)
    (inRange : rotateCount w wide count prec < prec)
    (moves : 0 < rotateCount w wide count prec) :
    rrotateDouble truncated wide (signExtended w v) count prec =
      signExtended w (v.rotateRight (rotateCount w wide count prec)) := by
  rw [rrotateDouble]
  generalize rotateCount w wide count prec = places at *
  rw [lshiftDouble_number positive precPositive fits truncated v (Int.natCast_nonneg _),
    rshiftDouble_logical positive fits, Int.toNat_natCast, shiftCount_of_lt truncated inRange,
    shiftCount_of_lt truncated (show prec - places < prec by omega), orDouble_comm]
  apply orDouble_number
  · intro i inside
    rw [BitVec.getLsbD_rotateRight_of_lt inRange, BitVec.getLsbD_shiftLeft,
      BitVec.getLsbD_ushiftRight]
    by_cases low : i < prec - places
    · simp [low]
    · rw [BitVec.getLsbD_of_ge v (_ + i) (by omega)]
      simp [low, inside]
  · rw [BitVec.msb_eq_getLsbD_last, BitVec.msb_eq_getLsbD_last,
      BitVec.getLsbD_rotateRight_of_lt inRange, BitVec.getLsbD_shiftLeft]
    simp [show ¬ prec - 1 < prec - places by omega]

end Numbers

theorem rotateRight_rotateLeft (v : BitVec prec) {places : Nat} (inRange : places < prec) :
    (v.rotateLeft places).rotateRight places = v := by
  apply BitVec.eq_of_getLsbD_eq
  intro i inside
  rw [BitVec.getLsbD_rotateRight_of_lt inRange, BitVec.getLsbD_rotateLeft_of_le inRange,
    BitVec.getLsbD_rotateLeft_of_le inRange]
  by_cases low : i < prec - places
  · simp [low, show places + i < prec by omega]
  · simp only [low, show i - (prec - places) < places by omega, inside, decide_true, decide_false,
      cond_true, cond_false, Bool.true_and]
    congr 1
    omega

/-- Shifts and rotates of the sign extension of a number.  A shift to the left
always yields a sign extension, a shift to the right extends as it shifts, and
a rotate yields the sign extension of the rotated number; rotates to the right
are by a count that is not a multiple of the precision. -/
theorem shifts_and_rotates (positive : 0 < w) (precPositive : 0 < prec) (fits : prec ≤ 2 * w)
    (truncated wide : Bool) (v : BitVec prec) (count : Int) :
    (∀ arith, lshiftDouble truncated (signExtended w v) count prec arith =
      if count < 0 then rshiftDouble truncated (signExtended w v) (-count).toNat prec arith
      else signExtended w (v <<< shiftCount truncated count.toNat prec)) ∧
    (∀ places, rshiftDouble truncated (signExtended w v) places prec true =
        signExtended w (v.sshiftRight (shiftCount truncated places prec)) ∧
      rshiftDouble truncated (signExtended w v) places prec false =
        zeroExtended w (v >>> shiftCount truncated places prec)) ∧
    (wide = true ∨ 0 ≤ count ∧ count < (2 ^ w : Nat) →
      lrotateDouble truncated wide (signExtended w v) count prec =
        signExtended w (v.rotateLeft (count % prec).toNat) ∧
      (¬ (prec : Int) ∣ count →
        rrotateDouble truncated wide (signExtended w v) count prec =
          signExtended w (v.rotateRight (count % prec).toNat) ∧
        rrotateDouble truncated wide
          (lrotateDouble truncated wide (signExtended w v) count prec) count prec =
            signExtended w v)) := by
  refine ⟨fun arith => ?_, fun places => ⟨?_, ?_⟩, fun representable => ?_⟩
  · split
    · rename_i negative
      rw [lshiftDouble, if_pos negative]
    · rename_i nonneg
      exact lshiftDouble_number positive precPositive fits truncated v (not_lt.mp nonneg) arith
  · exact rshiftDouble_arithmetic positive precPositive fits truncated v places
  · exact rshiftDouble_logical positive fits truncated v places
  · have reduced := rotateCount_eq precPositive representable
    have remainder := Int.emod_nonneg count (show (prec : Int) ≠ 0 by omega)
    have below := Int.emod_lt_of_pos count (show (0 : Int) < prec by omega)
    have inRange : rotateCount w wide count prec < prec := by omega
    have left (number : BitVec prec) :=
      lrotateDouble_number positive precPositive fits truncated number wide count inRange
    rw [left, ← reduced]
    refine ⟨rfl, fun notMultiple => ?_⟩
    have moves : 0 < rotateCount w wide count prec := by
      have nonzero : count % prec ≠ 0 := fun zero => notMultiple (Int.dvd_of_emod_eq_zero zero)
      omega
    have right (number : BitVec prec) :=
      rrotateDouble_number positive precPositive fits truncated number wide count inRange moves
    rw [right, right, rotateRight_rotateLeft v inRange]
    exact ⟨rfl, rfl⟩

theorem shifts_and_rotates_byte :
    lrotateDouble false true (signExtended 64 0xa5#8) (-3) 8 =
        signExtended 64 (0xa5#8 |>.rotateLeft ((-3 : Int) % (8 : Nat)).toNat) ∧
      rrotateDouble false true (signExtended 64 0xa5#8) (-3) 8 =
        signExtended 64 (0xa5#8 |>.rotateRight ((-3 : Int) % (8 : Nat)).toNat) ∧
      rrotateDouble false true (lrotateDouble false true (signExtended 64 0xa5#8) (-3) 8) (-3) 8 =
        signExtended 64 0xa5#8 := by
  obtain ⟨_, _, rotates⟩ := shifts_and_rotates (show 0 < 64 by decide) (show 0 < 8 by decide)
    (by decide) false true 0xa5#8 (-3)
  obtain ⟨left, right⟩ := rotates (Or.inl rfl)
  exact ⟨left, right (by decide)⟩

/-- A logical shift to the left sign extends. -/
theorem lshiftDouble_not_zeroExtended :
    lshiftDouble false (signExtended 64 0x40#8) 1 8 false ≠ zeroExtended 64 (0x40#8 <<< 1) := by
  decide

end GccCil.Gcc.FoldConst
