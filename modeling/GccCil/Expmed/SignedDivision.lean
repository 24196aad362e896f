import GccCil.Expmed.UnsignedDivision

/-!
# Signed division by a constant

`expand_divmod` for `TRUNC_DIV_EXPR` of signed operands, and for `FLOOR_DIV_EXPR`
with a positive divisor.  The multiplier is chosen for a precision of `size - 1`
bits, so it always fits `size` bits; as a signed number it is negative when its top
bit is set, and the dividend is added to make up for that.
-/

namespace GccCil.Expmed

/-- The sign word of `op0`. -/
def signWord (size : Nat) : Rtx := expandShiftRight .op0 (size - 1) false

def subtractSign (negative : Bool) (shifted sign : Rtx) : Rtx :=
  if negative then .minus sign shifted else .minus shifted sign

def expandSignedMultiplier (host : Nat) {size : Nat} (target : Target size) (negative : Bool)
    (chosen : Multiplier) : Expansion :=
  let ml := toUnsigned host chosen.multiplier
  if target.bitsPerWord ≤ chosen.postShift ∨ target.bitsPerWord ≤ size - 1 then .fail1
  else if ml < 2 ^ (size - 1) then
    let extraCost := target.shiftCost chosen.postShift + target.shiftCost (size - 1) +
      target.addCost
    match target.expandMultHighpart .op0 chosen.multiplier false
        (target.maxCost - extraCost) with
    | none => .fail1
    | some t1 =>
      let t2 := expandShiftRight t1 chosen.postShift false
      .quotient (subtractSign negative t2 (signWord size))
  else
    let mlr := Lib.wrap false size (ml ||| (2 ^ host - 2 ^ (size - 1)) : Nat)
    let extraCost := target.shiftCost chosen.postShift + target.shiftCost (size - 1) +
      2 * target.addCost
    match target.expandMultHighpart .op0 mlr false (target.maxCost - extraCost) with
    | none => .fail1
    | some t1 =>
      let t2 := Rtx.plus t1 .op0
      let t3 := expandShiftRight t2 chosen.postShift false
      .quotient (subtractSign negative t3 (signWord size))

/-- The divisor that a remainder is taken by: `n rem d = n rem -d`. -/
def signedDivisor (remFlag : Bool) (op1 : Int) : Int :=
  if remFlag && decide (op1 < 0) then op1.natAbs else op1

/-- `expand_divmod` of a signed `op0` by the constant `op1`, `TRUNC_DIV_EXPR`. -/
def expandSignedDivision (host : Nat) (divide : DivAndRoundDouble host) {size : Nat}
    (target : Target size) (remFlag : Bool) (op1 : Int) : Expansion :=
  let absD := op1.natAbs
  let d := signedDivisor remFlag op1
  if d = 1 then .quotient .op0
  else if d = -1 then .quotient (.neg .op0)
  else if absD = 2 ^ (size - 1) then .storeFlagEq d
  else if ExactPowerOf2OrZeroP absD then .signedPowerOf2
  else if size ≤ host then
    match chooseMultiplier host divide absD size (size - 1) with
    | none => .abort
    | some chosen => expandSignedMultiplier host target (d < 0) chosen
  else .fail1

/-- `expand_divmod` of a signed `op0` by a constant `d > 0`, `FLOOR_DIV_EXPR`. -/
def expandFloorDivision (host : Nat) (divide : DivAndRoundDouble host) {size : Nat}
    (target : Target size) (d : Nat) : Expansion :=
  if size ≤ host then
    if ExactPowerOf2OrZeroP d then
      .quotient (expandShiftRight .op0 (floorLog2 d).toNat false)
    else
      match chooseMultiplier host divide d size (size - 1) with
      | none => .abort
      | some chosen =>
        if chosen.mh ≠ 0 then .abort
        else if chosen.postShift < target.bitsPerWord ∧ size - 1 < target.bitsPerWord then
          let t1 := signWord size
          let t2 := Rtx.xor .op0 t1
          let extraCost := target.shiftCost chosen.postShift + target.shiftCost (size - 1) +
            2 * target.addCost
          match target.expandMultHighpart t2 chosen.multiplier true
              (target.maxCost - extraCost) with
          | none => .fail1
          | some t3 =>
            let t4 := expandShiftRight t3 chosen.postShift true
            .quotient (.xor t4 t1)
        else .fail1
  else .fail1

section Steps

variable {size : Nat}

theorem two_pow_eq_double (positive : 0 < size) : 2 ^ size = 2 * 2 ^ (size - 1) := by
  rw [← Nat.pow_succ', Nat.succ_eq_add_one, Nat.sub_add_cancel positive]

theorem bmod_eq_of_range (positive : 0 < size) {value : Int}
    (lower : -(2 ^ (size - 1) : Nat) ≤ value) (upper : value < (2 ^ (size - 1) : Nat)) :
    Int.bmod value (2 ^ size) = value := by
  have double := two_pow_eq_double positive
  exact Int.bmod_eq_of_le_mul_two (by omega) (by omega)

theorem toInt_range (x : BitVec size) :
    -(2 ^ (size - 1) : Nat) ≤ x.toInt ∧ x.toInt < (2 ^ (size - 1) : Nat) := by
  have lower := x.le_toInt
  have upper := x.toInt_lt
  push_cast
  exact ⟨lower, upper⟩

theorem toInt_highpart (positive : 0 < size) (left right : BitVec size) :
    (highpart false left right).toInt = left.toInt * right.toInt / (2 ^ size : Nat) := by
  obtain ⟨leftLower, leftUpper⟩ := toInt_range left
  obtain ⟨rightLower, rightUpper⟩ := toInt_range right
  have half : (0 : Int) < (2 ^ (size - 1) : Nat) := by exact_mod_cast Nat.two_pow_pos _
  rw [highpart, if_neg Bool.false_ne_true, BitVec.toInt_ofInt]
  apply bmod_eq_of_range positive
  · apply Int.le_ediv_of_mul_le (by exact_mod_cast Nat.two_pow_pos size)
    rw [two_pow_eq_double positive]
    push_cast at *
    nlinarith
  · apply Int.ediv_lt_of_lt_mul (by exact_mod_cast Nat.two_pow_pos size)
    rw [two_pow_eq_double positive]
    push_cast at *
    nlinarith

theorem signWord_eval (positive : 0 < size) (x : BitVec size) :
    (signWord size).eval x = some (x.sshiftRight (size - 1)) := by
  rw [signWord, expandShiftRight, if_neg Bool.false_ne_true, Rtx.eval, if_pos (by omega)]
  rfl

theorem toInt_sign (x : BitVec size) :
    (x.sshiftRight (size - 1)).toInt = if x.toInt < 0 then -1 else 0 := by
  obtain ⟨lower, upper⟩ := toInt_range x
  rw [BitVec.toInt_sshiftRight, Int.shiftRight_eq_div_pow]
  have half : (0 : Int) < (2 ^ (size - 1) : Nat) := by exact_mod_cast Nat.two_pow_pos _
  split
  case isTrue negative =>
    rw [Int.ediv_eq_iff_of_pos half]
    omega
  case isFalse nonnegative =>
    exact Int.ediv_eq_zero_of_lt (by omega) upper

end Steps

section Truncation

variable {host size l d m : Nat} {chosen : Multiplier}

theorem Chosen.truncates (choice : Chosen host size 1 l d m chosen) (positive : 0 < size)
    {x : Int} (lower : -(2 ^ (size - 1) : Nat) ≤ x) (upper : x < (2 ^ (size - 1) : Nat)) :
    x * m / (2 ^ (size + chosen.postShift) : Nat) - (if x < 0 then -1 else 0) = x.tdiv d := by
  have scale : 2 ^ (size - 1) * 2 ^ (chosen.postShift + 1) = 2 ^ (size + chosen.postShift) := by
    rw [← Nat.pow_add]
    congr 1
    omega
  rcases Int.lt_or_le x 0 with negative | nonnegative
  · obtain ⟨a, rfl⟩ := Int.exists_eq_neg_ofNat negative.le
    have nonzero : 0 < a := by omega
    have small : a * 2 ^ (chosen.postShift + 1) ≤ 2 ^ (size + chosen.postShift) := by
      rw [← scale]
      apply Nat.mul_le_mul_right
      omega
    have rounded := choice.reciprocal.neg_mul_div (Nat.two_pow_pos _) nonzero small
    rw [if_pos negative, Int.neg_mul, ← Int.natCast_mul, rounded, Int.neg_tdiv,
      ← Int.ofNat_tdiv]
    omega
  · obtain ⟨a, rfl⟩ := Int.eq_ofNat_of_zero_le nonnegative
    have small : a * 2 ^ (chosen.postShift + 1) < 2 ^ (size + chosen.postShift) := by
      rw [← scale]
      apply Nat.mul_lt_mul_of_pos_right _ (Nat.two_pow_pos _)
      omega
    have rounded := choice.reciprocal.mul_div small
    rw [if_neg (Int.not_lt.mpr nonnegative), Int.sub_zero, ← Int.ofNat_tdiv, ← Int.natCast_mul,
      ← Int.natCast_ediv, rounded]

/-- What is left once the upper part of the product with the full multiplier is
known: the shift and the subtraction of the sign word. -/
theorem Chosen.finish (choice : Chosen host size 1 l d m chosen) (room : l < size)
    (divisor : 2 < d) (x : BitVec size) {product : Rtx} {upper : BitVec size}
    (evaluated : product.eval x = some upper)
    (value : upper.toInt = x.toInt * m / (2 ^ size : Nat)) (negative : Bool) :
    ∃ y, (subtractSign negative (expandShiftRight product chosen.postShift false)
        (signWord size)).eval x = some y ∧
      y.toInt = x.toInt.tdiv (if negative then -(d : Int) else d) := by
  have positive : 0 < size := by omega
  have shift : chosen.postShift < size := Nat.lt_of_le_of_lt choice.postShift room
  obtain ⟨lower, upper_⟩ := toInt_range x
  have shifted : (upper.sshiftRight chosen.postShift).toInt -
      (x.sshiftRight (size - 1)).toInt = x.toInt.tdiv d := by
    rw [toInt_sign, BitVec.toInt_sshiftRight, Int.shiftRight_eq_div_pow, value,
      Int.ediv_ediv_of_nonneg (Int.natCast_nonneg _), ← Int.natCast_mul, ← Nat.pow_add]
    exact choice.truncates positive lower upper_
  have bound : (x.toInt.tdiv d).natAbs < 2 ^ (size - 1) := by
    rw [Int.natAbs_tdiv, Int.natAbs_natCast]
    apply Nat.div_lt_of_lt_mul
    have atLeast : 2 ^ (size - 1) * 3 ≤ d * 2 ^ (size - 1) := by
      rw [Nat.mul_comm]
      exact Nat.mul_le_mul_right _ divisor
    have power := Nat.two_pow_pos (size - 1)
    omega
  have shiftEval : (expandShiftRight product chosen.postShift false).eval x =
      some (upper.sshiftRight chosen.postShift) := by
    simp [expandShiftRight, Rtx.eval, shift, evaluated]
  cases negative with
  | false =>
    refine ⟨_, by simp [subtractSign, Rtx.eval, shiftEval, signWord_eval positive]; rfl, ?_⟩
    rw [BitVec.toInt_sub, shifted, bmod_eq_of_range positive (by omega) (by omega)]
    rfl
  | true =>
    refine ⟨_, by simp [subtractSign, Rtx.eval, shiftEval, signWord_eval positive]; rfl, ?_⟩
    rw [BitVec.toInt_sub, ← Int.neg_sub, shifted,
      bmod_eq_of_range positive (by omega) (by omega), if_pos rfl, Int.tdiv_neg]

theorem Chosen.toUnsigned_eq (choice : Chosen host size 1 l d m chosen) (wide : size ≤ host) :
    toUnsigned host chosen.multiplier = m := by
  have fitting := choice.fitting Nat.one_pos
  have inWord : 2 ^ size ≤ 2 ^ host := Nat.pow_le_pow_right (by decide) wide
  rw [choice.multiplier, Nat.mod_eq_of_lt fitting, toUnsigned_genInt (by omega)]

theorem Chosen.ofInt_eq (choice : Chosen host size 1 l d m chosen) (wide : size ≤ host) :
    BitVec.ofInt size chosen.multiplier = BitVec.ofNat size m := by
  rw [choice.multiplier, ofInt_genInt wide, Nat.mod_eq_of_lt (choice.fitting Nat.one_pos)]

theorem ofInt_signExtended (positive : 0 < size) (wide : size ≤ host)
    (top : 2 ^ (size - 1) ≤ m) (fits : m < 2 ^ size) :
    BitVec.ofInt size
        (Lib.wrap false size ((m ||| (2 ^ host - 2 ^ (size - 1)) : Nat) : Int)) =
      BitVec.ofNat size m := by
  have same : BitVec.ofInt size (Lib.wrap false size
      ((m ||| (2 ^ host - 2 ^ (size - 1)) : Nat) : Int)) =
      BitVec.ofNat size (m ||| (2 ^ host - 2 ^ (size - 1))) := ofInt_genInt le_rfl _
  have mask : 2 ^ host - 2 ^ (size - 1) = 2 ^ (size - 1) * (2 ^ (host - (size - 1)) - 1) := by
    rw [Nat.mul_sub, ← Nat.pow_add, Nat.add_sub_cancel' (by omega), Nat.mul_one]
  rw [same, mask]
  apply BitVec.eq_of_getLsbD_eq
  intro position inWord
  simp only [BitVec.getLsbD_ofNat, Nat.testBit_or, Nat.testBit_two_pow_mul,
    Nat.testBit_two_pow_sub_one]
  rcases Nat.lt_or_ge position (size - 1) with lower | highest
  · simp [Nat.not_le.mpr lower]
  · have topPosition : position = size - 1 := by omega
    have topBit : m.testBit (size - 1) = true := by
      apply Nat.testBit_of_two_pow_le_and_two_pow_add_one_gt top
      rw [Nat.sub_add_cancel positive]
      exact fits
    rw [topPosition, topBit, Bool.true_or]

theorem toInt_ofNat_top (positive : 0 < size) (top : 2 ^ (size - 1) ≤ m) (fits : m < 2 ^ size) :
    (BitVec.ofNat size m).toInt = (m : Int) - (2 ^ size : Nat) := by
  have double := two_pow_eq_double positive
  rw [BitVec.toInt_eq_toNat_cond, BitVec.toNat_ofNat, Nat.mod_eq_of_lt fits, if_neg (by omega)]

theorem toInt_ofNat_low (positive : 0 < size) (low : m < 2 ^ (size - 1)) :
    (BitVec.ofNat size m).toInt = m := by
  have double := two_pow_eq_double positive
  rw [BitVec.toInt_eq_toNat_cond, BitVec.toNat_ofNat, Nat.mod_eq_of_lt (by omega),
    if_pos (by omega)]

theorem toInt_add_upper (positive : 0 < size) (fits : m < 2 ^ size) (x : BitVec size)
    {t1 : BitVec size} (value : t1.toInt = x.toInt * ((m : Int) - (2 ^ size : Nat)) / (2 ^ size : Nat)) :
    (t1 + x).toInt = x.toInt * m / (2 ^ size : Nat) := by
  have scale : (0 : Int) < (2 ^ size : Nat) := by exact_mod_cast Nat.two_pow_pos size
  obtain ⟨lower, upper⟩ := toInt_range x
  have shifted : t1.toInt + x.toInt = x.toInt * m / (2 ^ size : Nat) := by
    rw [value, Int.mul_sub, Int.sub_mul_ediv_right _ _ scale.ne']
    omega
  rw [BitVec.toInt_add, shifted]
  have fitsInt : (m : Int) < (2 ^ size : Nat) := by exact_mod_cast fits
  apply bmod_eq_of_range positive
  · apply Int.le_ediv_of_mul_le scale
    calc -((2 ^ (size - 1) : Nat) : Int) * (2 ^ size : Nat)
        ≤ -((2 ^ (size - 1) : Nat) : Int) * m :=
          Int.mul_le_mul_of_nonpos_left (by omega) fitsInt.le
      _ ≤ x.toInt * m := Int.mul_le_mul_of_nonneg_right lower (Int.natCast_nonneg m)
  · apply Int.ediv_lt_of_lt_mul scale
    calc x.toInt * m ≤ (2 ^ (size - 1) : Nat) * m :=
          Int.mul_le_mul_of_nonneg_right upper.le (Int.natCast_nonneg m)
      _ < (2 ^ (size - 1) : Nat) * (2 ^ size : Nat) :=
          Int.mul_lt_mul_of_pos_left fitsInt (by exact_mod_cast Nat.two_pow_pos _)

/-- Signed division, rounding as `rounded` does. -/
def RoundsTo (target : Target size) (unsignedp : Bool) (rounded : Int → Int)
    (expansion : Expansion) : Prop :=
  Computes target unsignedp (fun x y => y.toInt = rounded x.toInt) expansion

theorem expandSignedMultiplier_roundsTo (choice : Chosen host size 1 l d m chosen)
    (wide : size ≤ host) (room : l < size) (divisor : 2 < d) (target : Target size)
    (negative : Bool) :
    RoundsTo target false (fun x => x.tdiv (if negative then -(d : Int) else d))
      (expandSignedMultiplier host target negative chosen) := by
  have positive : 0 < size := by omega
  have fits := choice.fitting Nat.one_pos
  rw [expandSignedMultiplier, choice.toUnsigned_eq wide]
  by_cases wordTooShort : target.bitsPerWord ≤ chosen.postShift ∨ target.bitsPerWord ≤ size - 1
  · rw [if_pos wordTooShort]
    refine ⟨.inl rfl, fun word _ => ?_⟩
    have below := choice.postShift
    omega
  rw [if_neg wordTooShort]
  by_cases low : m < 2 ^ (size - 1)
  · rw [if_pos low]
    apply computes_of_highpart _ _ _ fun t1 => subtractSign negative
      (expandShiftRight t1 chosen.postShift false) (signWord size)
    intro t1 expanded x
    have product := target.computesHighpart _ _ _ _ _ expanded x x rfl
    apply choice.finish room divisor x product
    rw [toInt_highpart positive, choice.ofInt_eq wide, toInt_ofNat_low positive low]
  · rw [if_neg low]
    have topBit : 2 ^ (size - 1) ≤ m := Nat.le_of_not_lt low
    apply computes_of_highpart _ _ _ fun t1 => subtractSign negative
      (expandShiftRight (.plus t1 .op0) chosen.postShift false) (signWord size)
    intro t1 expanded x
    have product := target.computesHighpart _ _ _ _ _ expanded x x rfl
    rw [ofInt_signExtended positive wide topBit fits] at product
    have sum : (Rtx.plus t1 .op0).eval x =
        some (highpart false x (BitVec.ofNat size m) + x) := by
      rw [Rtx.eval, product]
      rfl
    apply choice.finish room divisor x sum
    apply toInt_add_upper positive fits
    rw [toInt_highpart positive, toInt_ofNat_top positive topBit fits]

theorem sign_cases (positive : 0 < size) (x : BitVec size) :
    0 ≤ x.toInt ∧ x.sshiftRight (size - 1) = BitVec.ofNat size 0 ∨
      x.toInt < 0 ∧ x.sshiftRight (size - 1) = BitVec.allOnes size := by
  have sign := toInt_sign x
  rcases Int.lt_or_le x.toInt 0 with negative | nonnegative
  · right
    refine ⟨negative, BitVec.eq_of_toInt_eq ?_⟩
    rw [sign, if_pos negative, BitVec.toInt_allOnes, if_pos positive]
  · left
    refine ⟨nonnegative, BitVec.eq_of_toInt_eq ?_⟩
    rw [sign, if_neg (Int.not_lt.mpr nonnegative)]
    exact (BitVec.toInt_zero).symm

theorem toInt_complement (positive : 0 < size) (x : BitVec size) :
    (~~~x).toInt = -x.toInt - 1 := by
  have double := two_pow_eq_double positive
  have inWord := x.isLt
  rw [BitVec.toInt_eq_toNat_cond, BitVec.toInt_eq_toNat_cond x, BitVec.toNat_not]
  split <;> split <;> omega

theorem toNat_of_nonneg {x : BitVec size} (nonnegative : 0 ≤ x.toInt) :
    (x.toNat : Int) = x.toInt ∧ x.toNat < 2 ^ (size - 1) := by
  obtain ⟨-, upper⟩ := toInt_range x
  have cond := BitVec.toInt_eq_toNat_cond x
  have inWord := x.isLt
  split at cond <;> omega

theorem Chosen.toInt_divide (choice : Chosen host size 1 l d m chosen) (wide : size ≤ host)
    (positive : 0 < size) {x : BitVec size} (nonnegative : 0 ≤ x.toInt) :
    (highpart true x (BitVec.ofInt size chosen.multiplier) >>> chosen.postShift).toInt =
      x.toInt / d := by
  obtain ⟨same, small⟩ := toNat_of_nonneg nonnegative
  have double := two_pow_eq_double positive
  have quotient : (highpart true x (BitVec.ofInt size chosen.multiplier) >>>
      chosen.postShift).toNat = x.toNat / d := by
    rw [BitVec.toNat_ushiftRight, toNat_highpart, choice.toNat_multiplier wide,
      Nat.mod_eq_of_lt (choice.fitting Nat.one_pos), Nat.shiftRight_eq_div_pow,
      choice.mul_div positive small]
  have atMost : x.toNat / d ≤ x.toNat := Nat.div_le_self _ _
  rw [BitVec.toInt_eq_toNat_cond, quotient, if_pos (by omega), Int.natCast_ediv, same]

theorem Chosen.floor (choice : Chosen host size 1 l d m chosen) (wide : size ≤ host)
    (positive : 0 < size) (divisor : 0 < d) (x : BitVec size) :
    (highpart true (x ^^^ x.sshiftRight (size - 1)) (BitVec.ofInt size chosen.multiplier) >>>
        chosen.postShift ^^^ x.sshiftRight (size - 1)).toInt = x.toInt.fdiv d := by
  have divisorInt : (0 : Int) < d := by exact_mod_cast divisor
  rw [Int.fdiv_eq_ediv_of_nonneg _ divisorInt.le]
  rcases sign_cases positive x with ⟨nonnegative, sign⟩ | ⟨negative, sign⟩
  · rw [sign, BitVec.xor_zero, BitVec.xor_zero, choice.toInt_divide wide positive nonnegative]
  · have complement := toInt_complement positive x
    have nonnegative : 0 ≤ (~~~x).toInt := by omega
    rw [sign, BitVec.xor_allOnes, BitVec.xor_allOnes, toInt_complement positive,
      choice.toInt_divide wide positive nonnegative]
    obtain ⟨a, same⟩ := Int.eq_ofNat_of_zero_le nonnegative
    have successor : x.toInt = Int.negSucc a := by omega
    have rounded : Int.negSucc a / (d : Int) = -((a : Int) / d + 1) :=
      Int.negSucc_ediv a divisorInt
    rw [same, successor, rounded]
    omega

end Truncation

theorem divisorFits_natAbs {size d : Nat} (small : d < 2 ^ (size - 1)) (nonzero : 0 < d)
    (notPower : ∀ k, d ≠ 2 ^ k) :
    2 < d ∧ 1 < size ∧ DivisorFits size 1 (d.log2 + 1) d := by
  have notOne := notPower 0
  have notTwo := notPower 1
  have large : 2 < d := by omega
  have sizeLarge : 1 < size := by
    apply Nat.lt_of_not_le
    intro tooShort
    have power : 2 ^ (size - 1) ≤ 2 ^ 0 := Nat.pow_le_pow_right (by decide) (by omega)
    omega
  have logBound : d.log2 < size - 1 := (Nat.log2_lt nonzero.ne').mpr small
  have strict : 2 ^ d.log2 < d :=
    Nat.lt_of_le_of_ne (Nat.log2_self_le nonzero.ne') (notPower _).symm
  refine ⟨large, sizeLarge, ?_, Nat.lt_log2_self, by omega, by omega⟩
  rw [Nat.pow_succ]
  omega

section Expansions

variable {host size : Nat}

theorem signedDivisor_cases (remFlag : Bool) (op1 : Int) :
    signedDivisor remFlag op1 = op1.natAbs ∨ signedDivisor remFlag op1 = op1 := by
  unfold signedDivisor
  split
  · exact .inl rfl
  · exact .inr rfl

theorem signedDivisor_eq (remFlag : Bool) (op1 : Int) : signedDivisor remFlag op1 =
    if decide (signedDivisor remFlag op1 < 0) then -(op1.natAbs : Int) else op1.natAbs := by
  simp only [decide_eq_true_eq]
  rcases signedDivisor_cases remFlag op1 with same | same
  · rw [same]
    split <;> omega
  · rw [same]
    split <;> omega

theorem expandTruncDivision_roundsTo (divide : DivAndRoundDouble host) (target : Target size)
    (wide : size ≤ host) (remFlag : Bool) {op1 : Int} (nonzero : op1 ≠ 0)
    (small : op1.natAbs < 2 ^ (size - 1)) (notPower : ∀ k, op1.natAbs ≠ 2 ^ k) :
    RoundsTo target false (fun x => x.tdiv (signedDivisor remFlag op1))
      (expandSignedDivision host divide target remFlag op1) := by
  obtain ⟨large, sizeLarge, fits⟩ := divisorFits_natAbs small (Int.natAbs_pos.mpr nonzero) notPower
  obtain ⟨chosen, m, equation, choice⟩ := chooseMultiplier_spec fits wide divide
  have notExact : ¬ ExactPowerOf2OrZeroP op1.natAbs := by
    rw [exactPowerOf2OrZeroP_iff (by omega)]
    rintro ⟨k, equality⟩
    exact notPower k equality
  have divisorEq := signedDivisor_eq remFlag op1
  have notOne : signedDivisor remFlag op1 ≠ 1 := by
    rw [divisorEq]
    split <;> omega
  have notMinusOne : signedDivisor remFlag op1 ≠ -1 := by
    rw [divisorEq]
    split <;> omega
  rw [expandSignedDivision]
  simp only [if_neg notOne, if_neg notMinusOne, if_neg (Nat.ne_of_lt small), if_neg notExact,
    if_pos wide, equation]
  have rounded := expandSignedMultiplier_roundsTo choice wide fits.room large target
    (decide (signedDivisor remFlag op1 < 0))
  rw [← divisorEq] at rounded
  exact rounded

theorem expandFloorDivision_roundsTo (divide : DivAndRoundDouble host) (target : Target size)
    (wide : size ≤ host) {d : Nat} (nonzero : 0 < d) (small : d < 2 ^ (size - 1))
    (notPower : ∀ k, d ≠ 2 ^ k) :
    RoundsTo target true (fun x => x.fdiv d) (expandFloorDivision host divide target d) := by
  obtain ⟨large, sizeLarge, fits⟩ := divisorFits_natAbs small nonzero notPower
  obtain ⟨chosen, m, equation, choice⟩ := chooseMultiplier_spec fits wide divide
  have positive : 0 < size := by omega
  have notExact : ¬ ExactPowerOf2OrZeroP d := by
    rw [exactPowerOf2OrZeroP_iff (by omega)]
    rintro ⟨k, equality⟩
    exact notPower k equality
  have noTopBit : chosen.mh = 0 := by
    rw [choice.mh]
    exact Nat.div_eq_of_lt (choice.fitting Nat.one_pos)
  have shift : chosen.postShift < size := Nat.lt_of_le_of_lt choice.postShift fits.room
  rw [expandFloorDivision]
  simp only [if_pos wide, if_neg notExact, equation, noTopBit, ne_eq, not_true, if_false]
  by_cases inWord : chosen.postShift < target.bitsPerWord ∧ size - 1 < target.bitsPerWord
  · rw [if_pos inWord]
    apply computes_of_highpart _ _ _ fun t3 =>
      .xor (expandShiftRight t3 chosen.postShift true) (signWord size)
    intro t3 expanded x
    have sum : (Rtx.xor .op0 (signWord size)).eval x =
        some (x ^^^ x.sshiftRight (size - 1)) := by
      rw [Rtx.eval, signWord_eval positive]
      rfl
    have product := target.computesHighpart _ _ _ _ _ expanded x _ sum
    refine ⟨_, by simp [expandShiftRight, Rtx.eval, shift, product, signWord_eval positive]; rfl,
      ?_⟩
    exact choice.floor wide positive nonzero x
  · rw [if_neg inWord]
    exact ⟨.inl rfl, fun word _ => by omega⟩

/-- Division of a signed value by a constant on the multiply path rounds toward zero
for `TRUNC_DIV_EXPR` and, for a positive constant, toward minus infinity for
`FLOOR_DIV_EXPR`. -/
theorem expandSignedDivision_roundsTo (divide : DivAndRoundDouble host) (target : Target size)
    (wide : size ≤ host) {op1 : Int} (nonzero : op1 ≠ 0)
    (small : op1.natAbs < 2 ^ (size - 1)) (notPower : ∀ k, op1.natAbs ≠ 2 ^ k) :
    RoundsTo target false (fun x => x.tdiv op1)
        (expandSignedDivision host divide target false op1) ∧
      (0 < op1 → RoundsTo target true (fun x => x.fdiv op1)
        (expandFloorDivision host divide target op1.toNat)) := by
  refine ⟨expandTruncDivision_roundsTo divide target wide false nonzero small notPower,
    fun positive => ?_⟩
  have same : op1.natAbs = op1.toNat := by omega
  have cast : ((op1.toNat : Nat) : Int) = op1 := Int.toNat_of_nonneg positive.le
  rw [same] at small notPower
  have rounded := expandFloorDivision_roundsTo divide target wide (by omega) small notPower
  rwa [cast] at rounded

/-- Division by -7 in 16 bits. -/
theorem expandSignedDivision_minusSeven :
    RoundsTo (Target.multiplying 16 16) false (fun x => x.tdiv (-7))
      (expandSignedDivision 32 (.foldConst 16 (by decide)) (Target.multiplying 16 16) false (-7)) := by
  have notPower : ∀ k, (-7 : Int).natAbs ≠ 2 ^ k := by
    intro k
    match k with
    | 0 | 1 | 2 => decide
    | k + 3 =>
      rw [Nat.pow_add]
      change 7 ≠ _
      omega
  exact (expandSignedDivision_roundsTo (.foldConst 16 (by decide)) (Target.multiplying 16 16) (by decide)
    (by decide) (by decide) notPower).1

end Expansions

end GccCil.Expmed
