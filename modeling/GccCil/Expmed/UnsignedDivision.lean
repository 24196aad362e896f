import GccCil.Expmed.ChooseMultiplier
import GccCil.Lib.LowestBit

/-!
# Unsigned division by a constant

`expand_divmod` for `TRUNC_DIV_EXPR` of unsigned operands.  A divisor that is no
power of two and whose top bit is clear becomes a multiplication by a reciprocal.
When the multiplier needs `size + 1` bits, an even divisor is shifted first, and
an odd one gets an add-and-halve sequence.
-/

namespace GccCil.Expmed

/-- What `expand_divmod` does with one division. -/
inductive Expansion where
  | quotient (value : Rtx)
  /-- `emit_store_flag` of the unsigned comparison `op0 >= op1` -/
  | storeFlagGeu (op1 : Int)
  /-- `emit_store_flag` of the comparison `op0 == op1` -/
  | storeFlagEq (op1 : Int)
  /-- the branches for a signed division by plus or minus a power of two -/
  | signedPowerOf2
  /-- `goto fail1`, or no branch for this mode: a division is emitted -/
  | fail1
  /-- a failed assertion -/
  | abort
  deriving DecidableEq

def ExactPowerOf2OrZeroP (x : Nat) : Prop := x &&& (x - 1) = 0

instance (x : Nat) : Decidable (ExactPowerOf2OrZeroP x) :=
  inferInstanceAs (Decidable (_ = _))

def getModeMask (host size : Nat) : Nat := 2 ^ min size host - 1

def unsignedDivisor (host size : Nat) (op1 : Int) : Nat :=
  toUnsigned host op1 &&& getModeMask host size

def chooseUnsigned (host : Nat) (divide : DivAndRoundDouble host) (size d : Nat) :
    Option (Nat × Multiplier) := do
  let first ← chooseMultiplier host divide d size size
  if first.mh ≠ 0 ∧ d &&& 1 = 0 then
    let preShift := (floorLog2 (d &&& (2 ^ host - d) % 2 ^ host)).toNat
    let second ← chooseMultiplier host divide (d >>> preShift) size (size - preShift)
    guard (second.mh = 0)
    return (preShift, second)
  else return (0, first)

/-- Multiply by a multiplier of `size + 1` bits, whose top bit is not stored. -/
def expandLongMultiplier {size : Nat} (target : Target size) (chosen : Multiplier) :
    Expansion :=
  if target.bitsPerWord ≤ chosen.postShift - 1 then .fail1
  else
    let extraCost := target.shiftCost (chosen.postShift - 1) + target.shiftCost 1 +
      2 * target.addCost
    match target.expandMultHighpart .op0 chosen.multiplier true (target.maxCost - extraCost) with
    | none => .fail1
    | some t1 =>
      let t2 := Rtx.minus .op0 t1
      let t3 := expandShiftRight t2 1 true
      let t4 := Rtx.plus t1 t3
      .quotient (expandShiftRight t4 (chosen.postShift - 1) true)

def expandShortMultiplier {size : Nat} (target : Target size) (preShift : Nat)
    (chosen : Multiplier) : Expansion :=
  if target.bitsPerWord ≤ preShift ∨ target.bitsPerWord ≤ chosen.postShift then .fail1
  else
    let t1 := expandShiftRight .op0 preShift true
    let extraCost := target.shiftCost preShift + target.shiftCost chosen.postShift
    match target.expandMultHighpart t1 chosen.multiplier true (target.maxCost - extraCost) with
    | none => .fail1
    | some t2 => .quotient (expandShiftRight t2 chosen.postShift true)

/-- `expand_divmod` of an unsigned `op0` by the constant `op1`. -/
def expandUnsignedDivision (host : Nat) (divide : DivAndRoundDouble host) {size : Nat}
    (target : Target size) (op1 : Int) : Expansion :=
  let d := unsignedDivisor host size op1
  if ExactPowerOf2OrZeroP d then
    .quotient (expandShiftRight .op0 (floorLog2 d).toNat true)
  else if size ≤ host then
    if 2 ^ (size - 1) ≤ d then .storeFlagGeu op1
    else
      match chooseUnsigned host divide size d with
      | none => .abort
      | some (preShift, chosen) =>
        if chosen.mh ≠ 0 then expandLongMultiplier target chosen
        else expandShortMultiplier target preShift chosen
  else .fail1

section Sequences

variable {host size e l d m : Nat} {chosen : Multiplier}

theorem Chosen.toNat_multiplier (choice : Chosen host size e l d m chosen)
    (wide : size ≤ host) :
    (BitVec.ofInt size chosen.multiplier).toNat = m % 2 ^ size := by
  rw [choice.multiplier, ofInt_genInt wide, BitVec.toNat_ofNat, Nat.mod_mod]

theorem toNat_highpart (left right : BitVec size) :
    (highpart true left right).toNat = left.toNat * right.toNat / 2 ^ size := by
  rw [highpart, if_pos rfl, BitVec.toNat_ofNat]
  apply Nat.mod_eq_of_lt
  apply Nat.div_lt_of_lt_mul
  exact Nat.mul_lt_mul'' left.isLt right.isLt

theorem Chosen.mul_div (choice : Chosen host size e l d m chosen) (error : e ≤ size) {x : Nat}
    (precise : x < 2 ^ (size - e)) : x * m / 2 ^ size / 2 ^ chosen.postShift = x / d := by
  rw [Nat.div_div_eq_div_mul, ← Nat.pow_add]
  apply choice.reciprocal.mul_div
  calc x * 2 ^ (chosen.postShift + e) < 2 ^ (size - e) * 2 ^ (chosen.postShift + e) :=
        Nat.mul_lt_mul_of_pos_right precise (Nat.two_pow_pos _)
    _ = 2 ^ (size + chosen.postShift) := by
        rw [← Nat.pow_add]
        congr 1
        omega

/-- The expansion relates every value of the mode to its result, or it was given up;
a target with a cheap upper half does not give it up. -/
def Computes (target : Target size) (unsignedp : Bool)
    (result : BitVec size → BitVec size → Prop) (expansion : Expansion) : Prop :=
  (expansion = .fail1 ∨ ∃ value, expansion = .quotient value ∧
    ∀ x : BitVec size, ∃ y, value.eval x = some y ∧ result x y) ∧
  (size ≤ target.bitsPerWord →
    (∀ operand multiplier cost,
      (target.expandMultHighpart operand multiplier unsignedp cost).isSome = true) →
    ∃ value, expansion = .quotient value)

theorem computes_of_highpart {target : Target size} {unsignedp : Bool}
    {result : BitVec size → BitVec size → Prop}
    (operand : Rtx) (multiplier cost : Int) (sequence : Rtx → Rtx)
    (right : ∀ product, target.expandMultHighpart operand multiplier unsignedp cost =
      some product → ∀ x : BitVec size, ∃ y, (sequence product).eval x = some y ∧ result x y) :
    Computes target unsignedp result
      (match target.expandMultHighpart operand multiplier unsignedp cost with
        | none => .fail1
        | some product => .quotient (sequence product)) := by
  cases expanded : target.expandMultHighpart operand multiplier unsignedp cost with
  | none =>
    refine ⟨.inl rfl, fun _ available => ?_⟩
    have some_ := available operand multiplier cost
    rw [expanded] at some_
    cases some_
  | some product =>
    exact ⟨.inr ⟨_, rfl, right product expanded⟩, fun _ _ => ⟨_, rfl⟩⟩

def DividesBy (target : Target size) (divisor : Nat) (expansion : Expansion) : Prop :=
  Computes target true (fun x y => y.toNat = x.toNat / divisor) expansion

theorem expandShortMultiplier_divides (choice : Chosen host size e l d m chosen)
    (wide : size ≤ host) (room : l < size) (error : e < size) (short : m < 2 ^ size)
    (target : Target size) :
    DividesBy target (2 ^ e * d) (expandShortMultiplier target e chosen) := by
  have shift : chosen.postShift < size := Nat.lt_of_le_of_lt choice.postShift room
  unfold expandShortMultiplier
  split
  case isTrue long => exact ⟨.inl rfl, fun _ _ => by omega⟩
  case isFalse =>
    apply computes_of_highpart _ _ _ fun t2 => expandShiftRight t2 chosen.postShift true
    intro t2 expanded x
    have shifted : (expandShiftRight .op0 e true).eval x = some (x >>> e) := by
      simp [expandShiftRight, Rtx.eval, error]
    have product := target.computesHighpart _ _ _ _ _ expanded x _ shifted
    have precise : x.toNat / 2 ^ e < 2 ^ (size - e) := by
      apply Nat.div_lt_of_lt_mul
      rw [← Nat.pow_add, Nat.add_sub_cancel' error.le]
      exact x.isLt
    refine ⟨_, by simp [expandShiftRight, Rtx.eval, shift, product]; rfl, ?_⟩
    rw [BitVec.toNat_ushiftRight, toNat_highpart, choice.toNat_multiplier wide,
      Nat.mod_eq_of_lt short, BitVec.toNat_ushiftRight, Nat.shiftRight_eq_div_pow,
      Nat.shiftRight_eq_div_pow, choice.mul_div error.le precise, Nat.div_div_eq_div_mul]

theorem Chosen.postShift_pos (choice : Chosen host size 0 l d m chosen) (divisor : 2 < d)
    (long : 2 ^ size ≤ m) : 0 < chosen.postShift := by
  apply Nat.pos_of_ne_zero
  intro zero
  have within := choice.reciprocal.within
  rw [zero, Nat.add_zero, Nat.zero_add, Nat.pow_zero] at within
  have product : 2 ^ size * 3 ≤ m * d := Nat.mul_le_mul long divisor
  have scale := Nat.two_pow_pos size
  omega

theorem expandLongMultiplier_divides (choice : Chosen host size 0 l d m chosen)
    (wide : size ≤ host) (room : l < size) (divisor : 2 < d) (long : 2 ^ size ≤ m)
    (target : Target size) : DividesBy target d (expandLongMultiplier target chosen) := by
  have shiftPositive := choice.postShift_pos divisor long
  have shift : chosen.postShift - 1 < size := by
    have below := choice.postShift
    omega
  have one : 1 < size := by
    have below := choice.postShift
    omega
  have bounded := choice.bounded
  have doubled : 2 ^ (size + 1) = 2 ^ size + 2 ^ size := by rw [Nat.pow_succ]; ring
  have stored : m % 2 ^ size + 2 ^ size = m := by
    rw [Nat.mod_eq_sub_mod long, Nat.mod_eq_of_lt (by omega), Nat.sub_add_cancel long]
  unfold expandLongMultiplier
  split
  case isTrue wordTooShort => exact ⟨.inl rfl, fun _ _ => by omega⟩
  case isFalse =>
    apply computes_of_highpart _ _ _ fun t1 => expandShiftRight
      (.plus t1 (expandShiftRight (.minus .op0 t1) 1 true)) (chosen.postShift - 1) true
    intro t1 expanded x
    have product := target.computesHighpart _ _ _ _ _ expanded x x rfl
    have upper := toNat_highpart x (BitVec.ofInt size chosen.multiplier)
    rw [choice.toNat_multiplier wide] at upper
    have sum := Lib.halves x (m % 2 ^ size) (Nat.mod_lt _ (Nat.two_pow_pos size)) upper
    rw [stored] at sum
    refine ⟨_, by simp [expandShiftRight, Rtx.eval, shift, one, product]; rfl, ?_⟩
    rw [BitVec.toNat_ushiftRight, sum, Nat.shiftRight_eq_div_pow, Nat.div_div_eq_div_mul,
      ← Nat.pow_succ', Nat.succ_eq_add_one, Nat.sub_add_cancel shiftPositive,
      choice.mul_div (Nat.zero_le _) x.isLt]

end Sequences

section Divisor

variable {host size d : Nat}

theorem exactPowerOf2OrZeroP_iff (nonzero : d ≠ 0) :
    ExactPowerOf2OrZeroP d ↔ ∃ k, d = 2 ^ k :=
  Nat.and_sub_one_eq_zero_iff_isPowerOfTwo nonzero

theorem divisorFits_of_lt {bits e : Nat} (positive : 0 < d) (notPower : ∀ k, d ≠ 2 ^ k)
    (small : d < 2 ^ bits) (room : bits + e < size) :
    DivisorFits size e (d.log2 + 1) d := by
  have lower : 2 ^ d.log2 ≤ d := Nat.log2_self_le positive.ne'
  have strict : 2 ^ d.log2 < d := Nat.lt_of_le_of_ne lower (notPower _).symm
  have logBound : d.log2 < bits := (Nat.log2_lt positive.ne').mpr small
  refine ⟨?_, Nat.lt_log2_self, by omega, by omega⟩
  rw [Nat.pow_succ]
  omega

theorem preShift_spec (positive : 0 < d) (small : d < 2 ^ host) :
    ∃ k q, d = 2 ^ k * (2 * q + 1) ∧
      (floorLog2 (d &&& (2 ^ host - d) % 2 ^ host)).toNat = k ∧ d >>> k = 2 * q + 1 := by
  obtain ⟨k, q, equation, lowest⟩ := Lib.exists_and_negation positive.ne' small
  refine ⟨k, q, equation, ?_, ?_⟩
  · rw [Nat.mod_eq_of_lt (by omega), lowest, floorLog2, if_neg (Nat.two_pow_pos k).ne',
      Nat.log2_two_pow, Int.toNat_natCast]
  · rw [equation, Nat.shiftRight_eq_div_pow, Nat.mul_div_cancel_left _ (Nat.two_pow_pos k)]

/-- Neither call of `choose_multiplier` fails, the multiplier chosen after a
pre-shift fits, and it is a reciprocal of the shifted divisor. -/
theorem chooseUnsigned_spec (wide : size ≤ host) (divide : DivAndRoundDouble host)
    (large : 2 < d) (small : d < 2 ^ (size - 1)) (notPower : ∀ k, d ≠ 2 ^ k) :
    ∃ preShift chosen l divisor m, chooseUnsigned host divide size d = some (preShift, chosen) ∧
      l < size ∧ preShift < size ∧ 2 < divisor ∧ d = 2 ^ preShift * divisor ∧
      Chosen host size preShift l divisor m chosen ∧
      (chosen.mh ≠ 0 → preShift = 0 ∧ 2 ^ size ≤ m) ∧ (chosen.mh = 0 → m < 2 ^ size) := by
  have sizePositive : 1 < size := by
    apply Nat.lt_of_not_le
    intro tooShort
    have power : 2 ^ (size - 1) ≤ 2 ^ 0 := Nat.pow_le_pow_right (by decide) (by omega)
    omega
  have fits : DivisorFits size 0 (d.log2 + 1) d :=
    divisorFits_of_lt (by omega) notPower small (by omega)
  have scale := Nat.two_pow_pos size
  have bit : ∀ {l divisor e m : Nat} {result : Multiplier},
      Chosen host size e l divisor m result →
        (result.mh ≠ 0 → 2 ^ size ≤ m) ∧ (result.mh = 0 → m < 2 ^ size) := by
    intro l divisor e m result choice
    rw [choice.mh, ne_eq, Nat.div_eq_zero_iff_lt scale]
    exact ⟨Nat.le_of_not_lt, id⟩
  obtain ⟨first, m, equation, choice⟩ := chooseMultiplier_spec fits wide divide
  rw [Nat.sub_zero] at equation
  unfold chooseUnsigned
  simp only [equation, Option.bind_eq_bind, Option.bind_some]
  by_cases again : first.mh ≠ 0 ∧ d &&& 1 = 0
  · have inWord : d < 2 ^ host := small.trans (Nat.pow_lt_pow_right (by decide) (by omega))
    obtain ⟨k, q, product, shift, shifted⟩ := preShift_spec (by omega : 0 < d) inWord
    have even : d % 2 = 0 := by
      rw [← Nat.and_one_is_mod]
      exact again.2
    have kPositive : 0 < k := by
      apply Nat.pos_of_ne_zero
      intro zero
      rw [zero, Nat.pow_zero, Nat.one_mul] at product
      omega
    have odd : 0 < q := by
      apply Nat.pos_of_ne_zero
      intro zero
      rw [zero, Nat.mul_zero, Nat.zero_add, Nat.mul_one] at product
      exact notPower k product
    have notPower' : ∀ j, 2 * q + 1 ≠ 2 ^ j := by
      intro j equality
      apply notPower (k + j)
      rw [product, equality, Nat.pow_add]
    have kSmall : k < size - 1 := by
      apply (Nat.pow_lt_pow_iff_right (a := 2) (by decide)).mp
      apply Nat.lt_of_le_of_lt _ small
      rw [product]
      exact Nat.le_mul_of_pos_right _ (Nat.succ_pos _)
    have small' : 2 * q + 1 < 2 ^ (size - 1 - k) := by
      apply Nat.lt_of_mul_lt_mul_left (a := 2 ^ k)
      rw [← product, ← Nat.pow_add, Nat.add_sub_cancel' kSmall.le]
      exact small
    have fits' : DivisorFits size k ((2 * q + 1).log2 + 1) (2 * q + 1) :=
      divisorFits_of_lt (Nat.succ_pos _) notPower' small' (by omega)
    obtain ⟨second, m', equation', choice'⟩ := chooseMultiplier_spec fits' wide divide
    have fitting : second.mh = 0 := by
      rw [choice'.mh]
      exact Nat.div_eq_of_lt (choice'.fitting kPositive)
    refine ⟨k, second, _, 2 * q + 1, m', ?_, fits'.room, by omega, by omega, product, choice',
      fun nonzero => absurd fitting nonzero, (bit choice').2⟩
    simp only [if_pos again, shift, shifted, equation', guard, if_pos fitting, Option.pure_def,
      Option.bind_some]
  · refine ⟨0, first, _, d, m, if_neg again, fits.room, by omega, large, ?_, choice,
      fun nonzero => ⟨rfl, (bit choice).1 nonzero⟩, (bit choice).2⟩
    rw [Nat.pow_zero, Nat.one_mul]

end Divisor

/-- Division of an unsigned value by a constant that is no power of two and below
half the range: no assertion of `choose_multiplier` or `expand_divmod` fails, and
the emitted sequence computes the quotient rounded down. -/
theorem expandUnsignedDivision_divides {host size : Nat} (divide : DivAndRoundDouble host)
    (target : Target size) (wide : size ≤ host) (op1 : Int)
    (large : 2 < unsignedDivisor host size op1)
    (small : unsignedDivisor host size op1 < 2 ^ (size - 1))
    (notPower : ∀ k, unsignedDivisor host size op1 ≠ 2 ^ k) :
    DividesBy target (unsignedDivisor host size op1)
      (expandUnsignedDivision host divide target op1) := by
  obtain ⟨preShift, chosen, l, divisor, m, equation, room, preShiftSmall, divisorLarge, product,
    choice, long, short⟩ := chooseUnsigned_spec wide divide large small notPower
  have notExact : ¬ ExactPowerOf2OrZeroP (unsignedDivisor host size op1) := by
    rw [exactPowerOf2OrZeroP_iff (by omega)]
    rintro ⟨k, equality⟩
    exact notPower k equality
  rw [expandUnsignedDivision]
  simp only [if_neg notExact, if_pos wide, if_neg (Nat.not_le.mpr small), equation]
  by_cases fits : chosen.mh = 0
  · rw [if_neg (not_not.mpr fits), product]
    exact expandShortMultiplier_divides choice wide room preShiftSmall (short fits) target
  · rw [if_pos fits]
    obtain ⟨rfl, longMultiplier⟩ := long fits
    rw [product, Nat.pow_zero, Nat.one_mul]
    exact expandLongMultiplier_divides choice wide room divisorLarge longMultiplier target

/-- Division by 7 in 32 bits needs the add-and-halve sequence. -/
theorem expandUnsignedDivision_seven :
    DividesBy (Target.multiplying 32 32) 7
      (expandUnsignedDivision 64 (.foldConst 32 (by decide)) (Target.multiplying 32 32) 7) := by
  have divisor : unsignedDivisor 64 32 7 = 7 := by decide
  have notPower : ∀ k, unsignedDivisor 64 32 7 ≠ 2 ^ k := by
    rw [divisor]
    intro k
    match k with
    | 0 | 1 | 2 => decide
    | k + 3 =>
      rw [Nat.pow_add]
      omega
  have divides := expandUnsignedDivision_divides (.foldConst 32 (by decide)) (Target.multiplying 32 32)
    (by decide) 7 (by rw [divisor]; decide) (by rw [divisor]; decide) notPower
  rwa [divisor] at divides

end GccCil.Expmed
