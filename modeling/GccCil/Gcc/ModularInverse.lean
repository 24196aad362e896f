import GccCil.Gcc.ForceFitType
import GccCil.Lib.ModularInverse

/-!
# Modular inverses

`invert_mod2n` of `expmed.c`, and `inverse` of the analysis of loop iterations.
-/

namespace GccCil.Gcc.FoldConst

open GccCil.Lib DoubleInt

section Newton

variable {w : Nat}

/-- The loop of `invert_mod2n`, where `nbit` bits of `y` are right. -/
def refineInverse (x mask : BitVec w) (n nbit : Nat) (positive : 0 < nbit) (y : BitVec w) :
    BitVec w :=
  if nbit < n then
    refineInverse x mask n (nbit * 2) (Nat.mul_pos positive Nat.zero_lt_two)
      (y * (2#w - x * y) &&& mask)
  else y
termination_by n - nbit

def invertMod2n (x : BitVec w) (n : Nat) : BitVec w :=
  let mask := if n = w then ~~~0#w else (1#w <<< n) - 1#w
  refineInverse x mask n 3 (Nat.succ_pos 2) x

theorem mask_toNat {n : Nat} (inside : n ≤ w) :
    (if n = w then ~~~0#w else (1#w <<< n) - 1#w).toNat = 2 ^ n - 1 := by
  split
  · next same => rw [same, BitVec.not_zero, BitVec.toNat_allOnes]
  · next narrower =>
      have below : n < w := by omega
      have shifted : (1#w <<< n).toNat = 2 ^ n := by
        rw [BitVec.toNat_shiftLeft, toNat_one (by omega), Nat.one_shiftLeft,
          Nat.mod_eq_of_lt (Nat.pow_lt_pow_right Nat.one_lt_two below)]
      have least : 1#w ≤ 1#w <<< n := by
        rw [BitVec.le_def, shifted, toNat_one (by omega)]
        exact Nat.one_le_two_pow
      rw [BitVec.toNat_sub_of_le least, shifted, toNat_one (by omega)]

theorem and_mask {n : Nat} {mask : BitVec w} (ones : mask.toNat = 2 ^ n - 1) (y : BitVec w) :
    (y &&& mask).toNat = y.toNat % 2 ^ n := by
  rw [BitVec.toNat_and, ones, Nat.and_two_pow_sub_one_eq_mod]

theorem newton_modEq (x y : BitVec w) :
    ((y * (2#w - x * y)).toNat : ℤ) ≡ y.toNat * (2 - x.toNat * y.toNat) [ZMOD (2 ^ w : Nat)] := by
  have reduced : ∀ k : Nat, ((k % 2 ^ w : Nat) : ℤ) ≡ k [ZMOD (2 ^ w : Nat)] := by
    intro k
    rw [Int.natCast_emod]
    exact Int.mod_modEq _ _
  have product : ((x * y).toNat : ℤ) ≡ x.toNat * y.toNat [ZMOD (2 ^ w : Nat)] := by
    rw [BitVec.toNat_mul, ← Nat.cast_mul]
    exact reduced _
  have difference : ((2#w - x * y).toNat : ℤ) ≡ 2 - x.toNat * y.toNat [ZMOD (2 ^ w : Nat)] := by
    rw [BitVec.toNat_sub]
    refine (reduced _).trans ?_
    rw [Nat.cast_add, Nat.cast_sub (x * y).isLt.le, BitVec.toNat_ofNat]
    have whole : ((2 ^ w : Nat) : ℤ) ≡ 0 [ZMOD (2 ^ w : Nat)] := Int.modEq_zero_iff_dvd.mpr dvd_rfl
    have sum := (whole.sub product).add (reduced 2)
    refine sum.trans ?_
    rw [zero_sub, neg_add_eq_sub]
    rfl
  rw [BitVec.toNat_mul]
  refine (reduced _).trans ?_
  rw [Nat.cast_mul]
  exact (Int.ModEq.refl _).mul difference

theorem refineInverse_spec {n : Nat} (inside : n ≤ w) {x mask : BitVec w}
    (ones : mask.toNat = 2 ^ n - 1) {nbit : Nat} (positive : 0 < nbit) {y : BitVec w}
    (inverse : (2 : ℤ) ^ min nbit n ∣ x.toNat * y.toNat - 1) :
    (2 : ℤ) ^ n ∣ x.toNat * (refineInverse x mask n nbit positive y).toNat - 1 := by
  fun_induction refineInverse x mask n nbit positive y with
  | case1 nbit positive y more ih =>
    apply ih
    have refined : ((y * (2#w - x * y) &&& mask).toNat : ℤ) ≡
        y.toNat * (2 - x.toNat * y.toNat) [ZMOD (2 ^ n : Nat)] := by
      rw [and_mask ones, Int.natCast_emod]
      exact (Int.mod_modEq _ _).trans (modEq_of_le inside (newton_modEq x y))
    have doubled : (2 : ℤ) ^ min (nbit * 2) n ∣ (2 ^ min nbit n) ^ 2 := by
      rw [← pow_mul]
      exact pow_dvd_pow 2 (by omega)
    have narrowed := (refined.mul_left x.toNat).of_dvd (m := (2 : ℤ) ^ min (nbit * 2) n)
      (by push_cast; exact pow_dvd_pow 2 (min_le_right _ _))
    have precise := dvd_sub (doubled.trans (ModularInverse.newton inverse)) narrowed.dvd
    rwa [sub_sub_sub_cancel_left] at precise
  | case2 nbit positive y done =>
    rwa [min_eq_right (by omega)] at inverse

theorem invertMod2n_spec {n : Nat} (inside : n ≤ w) {x : BitVec w} (odd : Odd x.toNat) :
    x.toNat * (invertMod2n x n).toNat ≡ 1 [MOD 2 ^ n] := by
  have three : (2 : ℤ) ^ min 3 n ∣ x.toNat * x.toNat - 1 :=
    (pow_dvd_pow 2 (min_le_left _ _)).trans
      (ModularInverse.self_inverse (by exact_mod_cast odd))
  have final := refineInverse_spec inside (mask_toNat inside) (Nat.succ_pos 2) three
  apply (Nat.modEq_iff_dvd.mpr _).symm
  push_cast
  exact final

end Newton

section Power

variable {w half : Nat}

def floorLog2 (x : BitVec w) : Int := if x = 0#w then -1 else x.toNat.log2

def treeFloorLog2 (expr : IntCst w) : Int :=
  -- The bits beyond the precision are cleared "in case we've been sign extended".
  let x := clearBeyond expr.type.precision expr.int
  if x.high ≠ 0#w then w + floorLog2 x.high else floorLog2 x.low

def cstAndFitsInHwi (x : IntCst w) : Bool :=
  decide (x.type.precision ≤ w) && (x.int.high == 0#w || x.int.high == BitVec.allOnes w)

def intCstValue (x : IntCst w) : BitVec w :=
  let bits := x.type.precision
  let val := x.int.low
  let beyond := (BitVec.allOnes w <<< (bits - 1)) <<< 1
  if (val >>> (bits - 1)) &&& 1#w ≠ 0#w then val ||| beyond else val &&& ~~~beyond

def buildIntCstType (type : CstType) (low : BitVec w) : IntCst w :=
  let bits := type.precision
  let signed := !type.unsigned
  let mask := (2#w <<< (bits - 1)) - 1#w
  let negative := if w ≤ bits then low.slt 0#w else (low >>> (bits - 1)) &&& 1#w != 0#w
  let val := if w ≤ bits then low
    else if signed && negative then low ||| ~~~mask
    else low &&& mask
  let hi := if negative then ~~~0#w else 0#w
  let hi := if signed then hi
    else if bits ≤ w then 0#w
    else hi &&& ((2#w <<< (bits - w - 1)) - 1#w)
  { type := type, int := { low := val, high := hi } }

/-- `inverse`, with `none` for a failed assertion. -/
def inverse (truncated wide : Bool) (x mask : IntCst (2 * half)) : Option (IntCst (2 * half)) :=
  let type := x.type
  -- the counter is an `unsigned int`
  let ctr := (treeFloorLog2 mask % 2 ^ 32).toNat
  if type.precision ≤ 2 * half then
    if cstAndFitsInHwi x && cstAndFitsInHwi mask then
      let ix := intCstValue x
      let imask := intCstValue mask
      let irslt := ModularInverse.powers (· * ·) ctr 1#_ ix
      some (buildIntCstType type (irslt &&& imask))
    else none
  else
    let multiply := fun arg1 arg2 => intConstBinop truncated wide .mult arg1 arg2 false
    let rslt := ModularInverse.powers multiply ctr (buildIntCstType type 1#_) x
    some (intConstBinop truncated wide .bitAnd rslt mask false)

theorem treeFloorLog2_eq (expr : IntCst w) :
    treeFloorLog2 expr = if (clearBeyond expr.type.precision expr.int).toNat = 0 then (-1 : Int)
      else (clearBeyond expr.type.precision expr.int).toNat.log2 := by
  rw [treeFloorLog2]
  generalize clearBeyond expr.type.precision expr.int = x
  have low := x.low.isLt
  have power := Nat.two_pow_pos w
  by_cases zero : x.high = 0#w
  · have value : x.toNat = x.low.toNat := by
      rw [DoubleInt.toNat, zero, BitVec.toNat_zero, Nat.mul_zero, Nat.add_zero]
    rw [if_neg (not_not.mpr zero), FoldConst.floorLog2, value]
    refine if_congr ?_ rfl rfl
    rw [← BitVec.toNat_inj, BitVec.toNat_zero]
  · have high : x.high.toNat ≠ 0 := fun none => zero (BitVec.eq_of_toNat_eq none)
    obtain ⟨least, most⟩ := (Nat.log2_eq_iff high).mp rfl
    have nonzero : x.toNat ≠ 0 := by
      rw [DoubleInt.toNat]
      have := Nat.mul_pos power (Nat.pos_of_ne_zero high)
      omega
    have both : x.toNat.log2 = w + x.high.toNat.log2 := by
      rw [Nat.log2_eq_iff nonzero, DoubleInt.toNat, Nat.add_assoc, pow_add, pow_add]
      have lower := Nat.mul_le_mul_left (2 ^ w) least
      have upper := Nat.mul_le_mul_left (2 ^ w) (Nat.succ_le_of_lt most)
      rw [Nat.mul_succ] at upper
      omega
    rw [if_pos zero, if_neg nonzero, both, FoldConst.floorLog2, if_neg zero]
    push_cast
    rfl

structure IsMask (type : CstType) (s : Nat) (mask : IntCst w) : Prop where
  typed : mask.type = type
  value : mask.int.toNat = 2 ^ s - 1
  fits : InRange (!type.signExtended) type.precision (2 ^ s - 1)

variable {type : CstType} {s : Nat} {mask : IntCst w}

theorem IsMask.bits (isMask : IsMask type s mask) (i : Nat) :
    bit mask.int i = decide (i < s) := by
  rw [← testBit_toNat, isMask.value, Nat.testBit_two_pow_sub_one]

theorem IsMask.inWords (isMask : IsMask type s mask) : s ≤ 2 * w := by
  have below := toNat_lt mask.int
  rw [isMask.value] at below
  by_contra above
  have := Nat.pow_lt_pow_right Nat.one_lt_two (Nat.not_le.mp above)
  omega

theorem IsMask.inType (isMask : IsMask type s mask) :
    s ≤ type.precision ∧ (type.signExtended = true → s < type.precision) := by
  have fits := isMask.fits
  have positive := type.positive
  cases extended : type.signExtended with
  | true =>
    rw [extended, Bool.not_true, inRange_signed] at fits
    have below : s < type.precision := by
      by_contra above
      have larger : (2 : ℤ) ^ type.precision ≤ 2 ^ s :=
        pow_le_pow_right₀ one_le_two (Nat.not_lt.mp above)
      have least : (2 : ℤ) ^ 1 ≤ 2 ^ type.precision := pow_le_pow_right₀ one_le_two positive
      have := fits.2
      push_cast at this
      linarith
    exact ⟨below.le, fun _ => below⟩
  | false =>
    rw [extended, Bool.not_false, inRange_unsigned] at fits
    refine ⟨?_, fun same => absurd same Bool.false_ne_true⟩
    by_contra above
    have larger : (2 : ℤ) ^ (type.precision + 1) ≤ 2 ^ s :=
      pow_le_pow_right₀ one_le_two (Nat.not_le.mp above)
    have least : (0 : ℤ) < 2 ^ type.precision := pow_pos two_pos _
    have := fits.2
    rw [pow_succ] at larger
    push_cast at this
    linarith

theorem IsMask.fitBits (isMask : IsMask type s mask) :
    fitBits mask.type mask.int = mask.int := by
  obtain ⟨inType, signed⟩ := isMask.inType
  apply eq_of_bit_eq
  intro i inside
  rw [bit_fitBits _ _ inside, isMask.typed]
  by_cases below : i < type.precision
  · rw [if_pos below]
  · rw [if_neg below, isMask.bits, isMask.bits, decide_eq_false (by omega : ¬ i < s)]
    cases extended : type.signExtended with
    | false => rfl
    | true =>
      have strict := signed extended
      rw [decide_eq_false (by omega), Bool.and_false]

theorem IsMask.floorLog2 (isMask : IsMask type s mask) : treeFloorLog2 mask = s - 1 := by
  have inType := isMask.inType
  have cleared : clearBeyond mask.type.precision mask.int = mask.int := by
    apply eq_of_bit_eq
    intro i inside
    rw [bit_clearBeyond _ _ inside, isMask.bits, isMask.typed]
    by_cases below : i < s
    · simp [below, below.trans_le inType.1]
    · simp [below]
  have value := isMask.value
  rw [treeFloorLog2_eq, cleared, value]
  cases s with
  | zero => rfl
  | succ s =>
    have least := Nat.two_pow_pos s
    have nonzero : 2 ^ (s + 1) - 1 ≠ 0 := by
      rw [pow_succ]
      omega
    have top : (2 ^ (s + 1) - 1).log2 = s := by
      rw [Nat.log2_eq_iff nonzero, pow_succ]
      omega
    rw [if_neg nonzero, top]
    push_cast
    ring

theorem topBit_iff (x : BitVec w) {k : Nat} (inside : k < w) :
    (x >>> k) &&& 1#w ≠ 0#w ↔ x.getLsbD k = true := by
  have shifted := testBit_iff (x >>> k) (show 0 < w by omega)
  rwa [BitVec.shiftLeft_zero, BitVec.getLsbD_ushiftRight, Nat.add_zero] at shifted

theorem intCstValue_getLsbD {x : IntCst w} (oneWord : x.type.precision ≤ w) {i : Nat}
    (inside : i < w) :
    (intCstValue x).getLsbD i =
      if i < x.type.precision then x.int.low.getLsbD i
      else x.int.low.getLsbD (x.type.precision - 1) := by
  have positive := x.type.positive
  have beyond : ((BitVec.allOnes w <<< (x.type.precision - 1)) <<< 1).getLsbD i =
      decide (x.type.precision ≤ i) := by
    by_cases above : x.type.precision ≤ i
    · simp [inside, above]
      omega
    · simp [inside, above]
      omega
  rw [intCstValue]
  split
  · next negative =>
      rw [BitVec.getLsbD_or, beyond, (topBit_iff _ (by omega)).mp negative]
      by_cases below : i < x.type.precision
      · simp [below]
      · simp [below, Nat.not_lt.mp below]
  · next nonneg =>
      have clear := Bool.eq_false_iff.mpr (mt (topBit_iff _ (by omega)).mpr nonneg)
      rw [BitVec.getLsbD_and, BitVec.getLsbD_not, beyond, clear]
      by_cases below : i < x.type.precision
      · simp [below, inside]
      · simp [below, Nat.not_lt.mp below]

theorem cstAndFitsInHwi_of_fits {x : IntCst w} (oneWord : x.type.precision ≤ w)
    (fits : fitBits x.type x.int = x.int) : cstAndFitsInHwi x = true := by
  have high : ∀ i, i < w → x.int.high.getLsbD i =
      (x.type.signExtended && bit x.int (x.type.precision - 1)) := by
    intro i inside
    have stored : bit x.int (w + i) = x.int.high.getLsbD i := by
      rw [bit, if_neg (by omega), Nat.add_sub_cancel_left]
    rw [← stored, ← fits, bit_fitBits _ _ (by omega), if_neg (by omega), fits]
  rw [cstAndFitsInHwi, decide_eq_true oneWord, Bool.true_and, Bool.or_eq_true, beq_iff_eq,
    beq_iff_eq]
  cases sign : x.type.signExtended && bit x.int (x.type.precision - 1) with
  | false =>
    left
    apply BitVec.eq_of_getLsbD_eq
    intro i inside
    rw [high i inside, sign, BitVec.getLsbD_zero]
  | true =>
    right
    apply BitVec.eq_of_getLsbD_eq
    intro i inside
    rw [high i inside, sign, BitVec.getLsbD_allOnes, decide_eq_true inside]

theorem lowBits_getLsbD {bits : Nat} (positive : 0 < bits) (inside : bits < w) (i : Nat) :
    ((2#w <<< (bits - 1)) - 1#w).getLsbD i = decide (i < bits) := by
  have two : (2#w).toNat = 2 := by
    rw [BitVec.toNat_ofNat]
    exact Nat.mod_eq_of_lt (Nat.pow_lt_pow_right Nat.one_lt_two (show 1 < w by omega))
  have shifted : (2#w <<< (bits - 1)).toNat = 2 ^ bits := by
    rw [BitVec.toNat_shiftLeft, two, Nat.shiftLeft_eq, ← pow_succ', Nat.sub_add_cancel positive,
      Nat.mod_eq_of_lt (Nat.pow_lt_pow_right Nat.one_lt_two inside)]
  have least : 1#w ≤ 2#w <<< (bits - 1) := by
    rw [BitVec.le_def, shifted, toNat_one (by omega)]
    exact Nat.one_le_two_pow
  rw [← BitVec.testBit_toNat, BitVec.toNat_sub_of_le least, shifted, toNat_one (by omega),
    Nat.testBit_two_pow_sub_one]

theorem buildIntCstType_bits (type : CstType) (oneWord : type.precision ≤ w) {low : BitVec w}
    (nonneg : type.unsigned = false → low.getLsbD (type.precision - 1) = false) :
    (buildIntCstType type low).int.high = 0#w ∧
      ∀ i, i < w → (buildIntCstType type low).int.low.getLsbD i =
        (decide (i < type.precision) && low.getLsbD i) := by
  have positive := type.positive
  have sign : (if w ≤ type.precision then low.slt 0#w
      else (low >>> (type.precision - 1)) &&& 1#w != 0#w) = low.getLsbD (type.precision - 1) := by
    split
    · next long =>
        rw [BitVec.slt_zero_eq_msb, BitVec.msb_eq_getLsbD_last, le_antisymm oneWord long]
    · next short =>
        rw [Bool.eq_iff_iff, bne_iff_ne]
        exact topBit_iff low (by omega)
  have kept : ∀ i, i < w → (if w ≤ type.precision then low
      else low &&& ((2#w <<< (type.precision - 1)) - 1#w)).getLsbD i =
        (decide (i < type.precision) && low.getLsbD i) := by
    intro i inside
    split
    · next long => rw [decide_eq_true (by omega), Bool.true_and]
    · next short =>
        rw [BitVec.getLsbD_and, lowBits_getLsbD positive (by omega), Bool.and_comm]
  rw [buildIntCstType]
  dsimp only
  rw [sign]
  cases unsigned : type.unsigned with
  | true =>
    refine ⟨?_, fun i inside => ?_⟩
    · rw [Bool.not_true, if_neg Bool.false_ne_true, if_pos oneWord]
    · rw [Bool.not_true, Bool.false_and, if_neg Bool.false_ne_true]
      exact kept i inside
  | false =>
    rw [nonneg unsigned]
    refine ⟨?_, fun i inside => ?_⟩
    · rw [Bool.not_false, if_pos rfl, if_neg Bool.false_ne_true]
    · rw [Bool.and_false, if_neg Bool.false_ne_true]
      exact kept i inside

theorem buildIntCstType_one (type : CstType) (long : w < type.precision) (large : 1 < w) :
    (buildIntCstType type 1#w).int.toNat = 1 := by
  have nonneg : (1#w).slt 0#w = false := by
    rw [BitVec.slt_zero_eq_msb, BitVec.msb_eq_false_iff_two_mul_lt, toNat_one (by omega)]
    exact Nat.pow_lt_pow_right Nat.one_lt_two large
  rw [buildIntCstType]
  dsimp only
  rw [if_pos long.le, if_pos long.le, nonneg, DoubleInt.toNat, toNat_one (by omega)]
  cases type.unsigned with
  | true => simp [Nat.not_le.mpr long]
  | false => simp

theorem buildIntCstType_mask (isMask : IsMask type s mask) (oneWord : type.precision ≤ w)
    (value : BitVec w) :
    (buildIntCstType type (value &&& intCstValue mask)).int.toNat = value.toNat % 2 ^ s := by
  obtain ⟨inType, signed⟩ := isMask.inType
  have positive := type.positive
  have low : ∀ i, i < w → mask.int.low.getLsbD i = decide (i < s) := by
    intro i inside
    rw [← isMask.bits i, bit, if_pos inside]
  have masked : ∀ i, i < type.precision → i < w →
      (value &&& intCstValue mask).getLsbD i = (value.getLsbD i && decide (i < s)) := by
    intro i below inside
    rw [BitVec.getLsbD_and, intCstValue_getLsbD (isMask.typed ▸ oneWord) inside,
      if_pos (isMask.typed ▸ below), low i inside]
  have nonneg : type.unsigned = false →
      (value &&& intCstValue mask).getLsbD (type.precision - 1) = false := by
    intro unsigned
    have below := signed (by rw [CstType.signExtended, unsigned]; rfl)
    rw [masked _ (by omega) (by omega), decide_eq_false (by omega), Bool.and_false]
  obtain ⟨high, bits⟩ := buildIntCstType_bits type oneWord nonneg
  apply Nat.eq_of_testBit_eq
  intro i
  rw [testBit_toNat, Nat.testBit_mod_two_pow, BitVec.testBit_toNat, bit, high]
  by_cases inside : i < w
  · rw [if_pos inside, bits i inside]
    by_cases below : i < type.precision
    · rw [decide_eq_true below, Bool.true_and, masked i below inside, Bool.and_comm]
    · rw [decide_eq_false below, decide_eq_false (by omega), Bool.false_and, Bool.false_and]
  · rw [if_neg inside, BitVec.getLsbD_zero, BitVec.getLsbD_of_ge _ _ (by omega), Bool.and_false]

theorem modEq_of_bits {x y s : Nat} (same : ∀ i, i < s → x.testBit i = y.testBit i) :
    x ≡ y [MOD 2 ^ s] := by
  apply Nat.eq_of_testBit_eq
  intro i
  rw [Nat.testBit_mod_two_pow, Nat.testBit_mod_two_pow]
  by_cases inside : i < s
  · rw [same i inside]
  · rw [decide_eq_false inside, Bool.false_and, Bool.false_and]

theorem intCstValue_modEq {x : IntCst w} (oneWord : x.type.precision ≤ w)
    (inType : s ≤ x.type.precision) : (intCstValue x).toNat ≡ x.int.toNat [MOD 2 ^ s] := by
  apply modEq_of_bits
  intro i inside
  rw [BitVec.testBit_toNat, intCstValue_getLsbD oneWord (by omega), if_pos (by omega),
    testBit_toNat, bit, if_pos (by omega)]

theorem fitBits_modEq (inType : s ≤ type.precision) (inWords : s ≤ 2 * w) (x : DoubleInt w) :
    (fitBits type x).toNat ≡ x.toNat [MOD 2 ^ s] := by
  apply modEq_of_bits
  intro i inside
  rw [testBit_toNat, testBit_toNat, bit_fitBits _ _ (by omega), if_pos (by omega)]

theorem intConstBinop_type (truncated wide : Bool) (code : BinopCode)
    (arg1 arg2 : IntCst (2 * half)) :
    (intConstBinop truncated wide code arg1 arg2 false).type = arg1.type :=
  forceFitType_type _ _ _ _

theorem intConstBinop_mult (positive : 0 < half) (truncated wide : Bool)
    {arg1 arg2 : IntCst (2 * half)} (inType : s ≤ arg1.type.precision)
    (inWords : s ≤ 2 * (2 * half)) :
    (intConstBinop truncated wide .mult arg1 arg2 false).int.toNat ≡
      arg1.int.toNat * arg2.int.toNat [MOD 2 ^ s] := by
  have product : ((mulDouble arg1.int arg2.int).1.toNat : ℤ) ≡
      (arg1.int.toNat * arg2.int.toNat : Nat) [ZMOD (2 ^ (2 * (2 * half)) : Nat)] := by
    have stored := eq_ofInt_iff.mp (mulDouble_spec positive arg1.int arg2.int).1
    rw [Nat.cast_mul]
    exact stored.trans ((value_modEq false arg1.int).mul (value_modEq false arg2.int))
  have narrowed := modEq_of_le inWords product
  rw [Int.natCast_modEq_iff] at narrowed
  rw [intConstBinop, finishBinop_int, if_neg Bool.false_ne_true]
  exact (fitBits_modEq inType inWords _).trans narrowed

theorem intConstBinop_bitAnd {mask : IntCst (2 * half)} (isMask : IsMask type s mask)
    (truncated wide : Bool) {arg1 : IntCst (2 * half)} (typed : arg1.type = type) :
    (intConstBinop truncated wide .bitAnd arg1 mask false).int.toNat =
      arg1.int.toNat % 2 ^ s := by
  obtain ⟨inType, signed⟩ := isMask.inType
  have masked : ∀ i, bit ⟨arg1.int.low &&& mask.int.low, arg1.int.high &&& mask.int.high⟩ i =
      (bit arg1.int i && decide (i < s)) := by
    intro i
    rw [← isMask.bits i, bit, bit, bit]
    split
    · exact BitVec.getLsbD_and
    · exact BitVec.getLsbD_and
  rw [intConstBinop, finishBinop_int, if_neg Bool.false_ne_true, typed]
  apply Nat.eq_of_testBit_eq
  intro i
  rw [testBit_toNat, Nat.testBit_mod_two_pow, testBit_toNat]
  by_cases inside : i < 2 * (2 * half)
  · rw [bit_fitBits _ _ inside]
    dsimp only [foldBinop]
    rw [masked, masked]
    by_cases below : i < type.precision
    · rw [if_pos below, Bool.and_comm]
    · rw [if_neg below, decide_eq_false (by omega : ¬ i < s), Bool.false_and]
      cases extended : type.signExtended with
      | false => rw [Bool.false_and]
      | true =>
        have strict := signed extended
        rw [decide_eq_false (by omega), Bool.and_false, Bool.and_false]
  · rw [bit_of_le _ (Nat.not_lt.mp inside), bit_of_le _ (Nat.not_lt.mp inside), Bool.and_false]

theorem power_inverse {x product y ctr : Nat} (odd : Odd x) (counted : 0 < s → ctr = s - 1)
    (power : (product : ZMod (2 ^ s)) = (x : ZMod (2 ^ s)) ^ (2 ^ ctr - 1))
    (masked : y = product % 2 ^ s) : y < 2 ^ s ∧ x * y ≡ 1 [MOD 2 ^ s] := by
  refine ⟨masked ▸ Nat.mod_lt _ (Nat.two_pow_pos s), ?_⟩
  rcases Nat.eq_zero_or_pos s with rfl | positive
  · exact Nat.modEq_one
  rw [← ZMod.natCast_eq_natCast_iff, Nat.cast_mul, masked, ZMod.natCast_mod, power,
    counted positive, ← pow_succ', Nat.sub_add_cancel Nat.one_le_two_pow, Nat.cast_one]
  have exponent := ModularInverse.pow_two_pow_eq_one odd (s - 1)
  rwa [Nat.sub_add_cancel positive] at exponent

theorem inverse_spec (positive : 0 < half) (words : 2 * (2 * half) ≤ 2 ^ 32)
    (truncated wide : Bool) {x mask : IntCst (2 * half)} (isMask : IsMask x.type s mask)
    (fits : fitBits x.type x.int = x.int) (odd : Odd x.int.toNat) :
    ∃ y, inverse truncated wide x mask = some y ∧ y.int.toNat < 2 ^ s ∧
      x.int.toNat * y.int.toNat ≡ 1 [MOD 2 ^ s] := by
  have inWords := isMask.inWords
  obtain ⟨inType, -⟩ := isMask.inType
  have counted : 0 < s → (treeFloorLog2 mask % 2 ^ 32).toNat = s - 1 := by
    intro some
    rw [isMask.floorLog2, Int.emod_eq_of_lt (by omega) (by omega)]
    omega
  rw [inverse]
  dsimp only
  by_cases oneWord : x.type.precision ≤ 2 * half
  · rw [if_pos oneWord, cstAndFitsInHwi_of_fits oneWord fits,
      cstAndFitsInHwi_of_fits (isMask.typed ▸ oneWord) isMask.fitBits, Bool.true_and, if_pos rfl]
    refine ⟨_, rfl, power_inverse odd counted ?_ (buildIntCstType_mask isMask oneWord _)⟩
    have cast : ∀ a b : BitVec (2 * half),
        ((a * b).toNat : ZMod (2 ^ s)) = (a.toNat : ZMod (2 ^ s)) * b.toNat := by
      intro a b
      rw [← Nat.cast_mul, ZMod.natCast_eq_natCast_iff, BitVec.toNat_mul]
      exact (Nat.mod_modEq _ _).of_dvd (pow_dvd_pow 2 (by omega))
    have value := (@ModularInverse.powers_value _ _ _ _ (fun _ => True)
      (fun a : BitVec (2 * half) => (a.toNat : ZMod (2 ^ s))) (fun _ _ _ _ => trivial)
      (fun a b _ _ => cast a b) (treeFloorLog2 mask % 2 ^ 32).toNat 1#_ (intCstValue x)
      trivial trivial).2
    rw [value, toNat_one (by omega), Nat.cast_one, one_mul,
      (ZMod.natCast_eq_natCast_iff _ _ _).mpr (intCstValue_modEq oneWord inType)]
  · rw [if_neg oneWord]
    have cast : ∀ a b : IntCst (2 * half), a.type = x.type → b.type = x.type →
        ((intConstBinop truncated wide .mult a b false).int.toNat : ZMod (2 ^ s)) =
          (a.int.toNat : ZMod (2 ^ s)) * b.int.toNat := by
      intro a b typed _
      rw [← Nat.cast_mul, ZMod.natCast_eq_natCast_iff]
      exact intConstBinop_mult positive truncated wide (by rwa [typed]) inWords
    obtain ⟨typed, value⟩ := @ModularInverse.powers_value _ _ _ _
      (fun a : IntCst (2 * half) => a.type = x.type)
      (fun a : IntCst (2 * half) => (a.int.toNat : ZMod (2 ^ s)))
      (fun a b typed _ => (intConstBinop_type truncated wide .mult a b).trans typed) cast
      (treeFloorLog2 mask % 2 ^ 32).toNat (buildIntCstType x.type 1#_) x rfl rfl
    refine ⟨_, rfl, power_inverse odd counted ?_
      (intConstBinop_bitAnd isMask truncated wide typed)⟩
    rw [value, buildIntCstType_one x.type (by omega) (by omega), Nat.cast_one, one_mul]

/-- Both functions return inverses. -/
theorem modular_inverses (positive : 0 < half) (words : 2 * (2 * half) ≤ 2 ^ 32) {n : Nat}
    (inside : n ≤ 2 * half) {d : BitVec (2 * half)} (divisor : Odd d.toNat)
    (truncated wide : Bool) {x mask : IntCst (2 * half)} (isMask : IsMask x.type s mask)
    (fits : fitBits x.type x.int = x.int) (odd : Odd x.int.toNat) :
    d.toNat * (invertMod2n d n).toNat ≡ 1 [MOD 2 ^ n] ∧
      ∃ y, inverse truncated wide x mask = some y ∧ y.int.toNat < 2 ^ s ∧
        x.int.toNat * y.int.toNat ≡ 1 [MOD 2 ^ s] :=
  ⟨invertMod2n_spec inside divisor,
    inverse_spec positive words truncated wide isMask fits odd⟩

/-- The inverses of three in a word of 64 bits, and of 7 modulo `2 ^ 31` for `int`. -/
theorem modular_inverses_int :
    (3#(2 * 32)).toNat * (invertMod2n 3#(2 * 32) 64).toNat ≡ 1 [MOD 2 ^ 64] ∧
      ∃ y, inverse false true (intCst 7) (intCst (2 ^ 31 - 1)) = some y ∧ y.int.toNat < 2 ^ 31 ∧
        (intCst 7).int.toNat * y.int.toNat ≡ 1 [MOD 2 ^ 31] :=
  modular_inverses (show 0 < 32 by decide) (by decide) (by decide) (by decide) false true
    ⟨rfl, by decide, by decide⟩ (by decide) (by decide)

end Power

end GccCil.Gcc.FoldConst
