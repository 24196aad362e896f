import GccCil.Libcpp.NumArithmetic

/-!
# Preprocessor shifts

The two parts are read as an unbounded word whose bits above them repeat the
sign.  Extending, moving by a part and moving within a part are described on
this word bit by bit, so that the branches of the shifts compose.
-/

namespace GccCil.Libcpp

variable {part precision : Nat} {num : CppNum part}

def CppNum.bit (num : CppNum part) (sign : Bool) (i : Nat) : Bool :=
  if i < part then num.low.getLsbD i
  else if i < 2 * part then num.high.getLsbD (i - part) else sign

def signPart (part : Nat) (sign : Bool) : BitVec part := if sign then ~~~0 else 0

theorem signPart_getLsbD (sign : Bool) (i : Nat) :
    (signPart part sign).getLsbD i = (decide (i < part) && sign) := by
  cases sign with
  | true => simp [signPart]
  | false => simp [signPart]

theorem CppNum.toNat_testBit_eq_bit (num : CppNum part) (i : Nat) :
    num.toNat.testBit i = num.bit false i := by
  rw [CppNum.toNat_testBit, CppNum.bit]
  split
  case isTrue low => rfl
  case isFalse high =>
    split
    case isTrue inside => rfl
    case isFalse above => exact BitVec.getLsbD_of_ge _ _ (by omega)

theorem CppNum.Trimmed.bit_of_le (trimmed : num.Trimmed precision) {i : Nat}
    (above : precision ≤ i) : num.bit false i = false := by
  rw [← CppNum.toNat_testBit_eq_bit]
  exact Nat.testBit_lt_two_pow (lt_of_lt_of_le trimmed (Nat.pow_le_pow_right (by decide) above))

theorem CppNum.bit_low (num : CppNum part) (sign : Bool) {i : Nat} (low : i < part) :
    num.bit sign i = num.low.getLsbD i := by
  rw [CppNum.bit, if_pos low]

theorem CppNum.bit_high (num : CppNum part) (sign : Bool) {i : Nat} (low : ¬ i < part)
    (high : i < 2 * part) : num.bit sign i = num.high.getLsbD (i - part) := by
  rw [CppNum.bit, if_neg low, if_pos high]

theorem CppNum.bit_above (num : CppNum part) (sign : Bool) {i : Nat} (above : ¬ i < 2 * part) :
    num.bit sign i = sign := by
  rw [CppNum.bit, if_neg (by omega), if_neg above]

theorem bit_cases (part i : Nat) :
    i < part ∨ (¬ i < part ∧ i < 2 * part) ∨ ¬ i < 2 * part := by
  omega

theorem rshiftExtend_bit (fits : precision ≤ 2 * part) (trimmed : num.Trimmed precision)
    (sign : Bool) (i : Nat) :
    (rshiftExtend num precision (signPart part sign)).bit sign i =
      if i < precision then num.bit false i else sign := by
  have clear : ¬ i < precision → num.bit false i = false :=
    fun above => trimmed.bit_of_le (not_lt.mp above)
  rw [rshiftExtend]
  obtain low | ⟨low, high⟩ | above := bit_cases part i
  · rw [CppNum.bit_low _ _ low] at clear ⊢
    split
    case isTrue narrow =>
      rw [CppNum.bit_low _ _ low, BitVec.getLsbD_or, BitVec.getLsbD_shiftLeft, signPart_getLsbD]
      by_cases inside : i < precision
      · simp [inside]
      · rw [clear inside]
        simp [inside, low, show i - precision < part by omega]
    case isFalse wide =>
      rw [if_pos (show i < precision by omega)]
      split <;> rw [CppNum.bit_low _ _ low]
  · rw [CppNum.bit_high _ _ low high] at clear ⊢
    split
    case isTrue narrow =>
      rw [CppNum.bit_high _ _ low high, signPart_getLsbD, if_neg (by omega)]
      simp [show i - part < part by omega]
    case isFalse wide =>
      split
      case isTrue inner =>
        rw [CppNum.bit_high _ _ low high, BitVec.getLsbD_or, BitVec.getLsbD_shiftLeft,
          signPart_getLsbD]
        by_cases inside : i < precision
        · simp [inside, show i - part < precision - part by omega]
        · rw [clear inside]
          simp [inside, show i - part < part by omega,
            show ¬ i - part < precision - part by omega,
            show i - part - (precision - part) < part by omega]
      case isFalse outer =>
        rw [CppNum.bit_high _ _ low high, if_pos (show i < precision by omega)]
  · rw [CppNum.bit_above _ _ above, if_neg (show ¬ i < precision by omega)]

theorem moveDown_bit (num : CppNum part) (sign : Bool) (i : Nat) :
    CppNum.bit { num with low := num.high, high := signPart part sign } sign i =
      num.bit sign (part + i) := by
  obtain low | ⟨low, high⟩ | above := bit_cases part i
  · rw [CppNum.bit_low _ _ low, CppNum.bit_high _ _ (by omega) (by omega), Nat.add_sub_cancel_left]
  · rw [CppNum.bit_high _ _ low high, CppNum.bit_above _ _ (by omega), signPart_getLsbD]
    simp [show i - part < part by omega]
  · rw [CppNum.bit_above _ _ above, CppNum.bit_above _ _ (by omega)]

theorem shiftDown_bit (num : CppNum part) (sign : Bool) {n : Nat} (small : n ≤ part) (i : Nat) :
    CppNum.bit { num with
      low := num.low >>> n ||| num.high <<< (part - n)
      high := num.high >>> n ||| signPart part sign <<< (part - n) } sign i =
      num.bit sign (n + i) := by
  obtain low | ⟨low, high⟩ | above := bit_cases part i
  · rw [CppNum.bit_low _ _ low, BitVec.getLsbD_or, BitVec.getLsbD_ushiftRight,
      BitVec.getLsbD_shiftLeft]
    by_cases stays : n + i < part
    · rw [CppNum.bit_low _ _ stays]
      simp [show i < part - n by omega]
    · rw [CppNum.bit_high _ _ stays (by omega), BitVec.getLsbD_of_ge _ (n + i) (by omega)]
      simp [low, show ¬ i < part - n by omega, show i - (part - n) = n + i - part by omega]
  · rw [CppNum.bit_high _ _ low high, BitVec.getLsbD_or, BitVec.getLsbD_ushiftRight,
      BitVec.getLsbD_shiftLeft, signPart_getLsbD]
    by_cases stays : n + i < 2 * part
    · rw [CppNum.bit_high _ _ (by omega) stays]
      simp [show i - part < part - n by omega, show n + (i - part) = n + i - part by omega]
    · rw [CppNum.bit_above _ _ stays, BitVec.getLsbD_of_ge _ (n + (i - part)) (by omega)]
      simp [show i - part < part by omega, show ¬ i - part < part - n by omega,
        show i - part - (part - n) < part by omega]
  · rw [CppNum.bit_above _ _ above, CppNum.bit_above _ _ (by omega)]

theorem moveUp_bit (num : CppNum part) {i : Nat} (inside : i < 2 * part) :
    CppNum.bit { num with high := num.low, low := 0 } false i =
      (decide (part ≤ i) && num.bit false (i - part)) := by
  by_cases low : i < part
  · rw [CppNum.bit_low _ _ low]
    simp [show ¬ part ≤ i by omega]
  · rw [CppNum.bit_high _ _ low inside, CppNum.bit_low _ _ (by omega)]
    simp [show part ≤ i by omega]

theorem shiftUp_bit (num : CppNum part) {n : Nat} (small : n < part) {i : Nat}
    (inside : i < 2 * part) :
    CppNum.bit { num with
      high := num.high <<< n ||| num.low >>> (part - n)
      low := num.low <<< n } false i =
      (decide (n ≤ i) && num.bit false (i - n)) := by
  by_cases low : i < part
  · rw [CppNum.bit_low _ _ low, CppNum.bit_low _ _ (by omega), BitVec.getLsbD_shiftLeft]
    by_cases moved : n ≤ i
    · simp [low, moved]
    · simp [moved, show i < n by omega]
  · rw [CppNum.bit_high _ _ low inside, BitVec.getLsbD_or, BitVec.getLsbD_shiftLeft,
      BitVec.getLsbD_ushiftRight]
    by_cases crosses : i - n < part
    · rw [CppNum.bit_low _ _ crosses]
      simp [show i - part < n by omega, show n ≤ i by omega,
        show part - n + (i - part) = i - n by omega]
    · rw [CppNum.bit_high _ _ crosses (by omega),
        BitVec.getLsbD_of_ge num.low _ (by omega)]
      simp [show i - part < part by omega, show n ≤ i - part by omega, show n ≤ i by omega,
        show i - part - n = i - n - part by omega]

def shiftDown (num : CppNum part) (sign : BitVec part) (n : Nat) : CppNum part :=
  let (num, n) := if n ≥ part then ({ num with low := num.high, high := sign }, n - part)
    else (num, n)
  if n ≠ 0 then
    { num with
      low := num.low >>> n ||| num.high <<< (part - n)
      high := num.high >>> n ||| sign <<< (part - n) }
  else num

theorem shiftDown_eq_bit (num : CppNum part) (sign : Bool) {n : Nat} (inside : n < 2 * part)
    (i : Nat) : (shiftDown num (signPart part sign) n).bit sign i = num.bit sign (n + i) := by
  have within : ∀ (num : CppNum part) (n : Nat), n < part →
      CppNum.bit (if n ≠ 0 then
        { num with
          low := num.low >>> n ||| num.high <<< (part - n)
          high := num.high >>> n ||| signPart part sign <<< (part - n) }
        else num) sign i = num.bit sign (n + i) := by
    intro num n small
    split
    case isTrue nonzero => exact shiftDown_bit num sign small.le i
    case isFalse zero => rw [not_not.mp zero, Nat.zero_add]
  by_cases parts : n ≥ part
  · simp only [shiftDown, parts, if_true]
    refine (within { num with low := num.high, high := signPart part sign } (n - part)
      (by omega)).trans ?_
    rw [moveDown_bit]
    congr 1
    omega
  · simp only [shiftDown, parts, if_false]
    exact within num n (not_le.mp parts)

theorem numRshift_testBit (fits : precision ≤ 2 * part) (trimmed : num.Trimmed precision)
    (n i : Nat) :
    (numRshift num precision n).toNat.testBit i =
      (decide (i < precision) && if n + i < precision then num.bit false (n + i)
        else !(num.unsignedp || numPositive num precision)) := by
  have mask : (if num.unsignedp || numPositive num precision then 0 else ~~~0 : BitVec part) =
      signPart part (!(num.unsignedp || numPositive num precision)) := by
    cases num.unsignedp || numPositive num precision <;> rfl
  have shift : numRshift num precision n =
      { numTrim
          (if n ≥ precision then
            { num with
              high := signPart part (!(num.unsignedp || numPositive num precision))
              low := signPart part (!(num.unsignedp || numPositive num precision)) }
          else
            shiftDown (rshiftExtend num precision
              (signPart part (!(num.unsignedp || numPositive num precision))))
              (signPart part (!(num.unsignedp || numPositive num precision))) n) precision with
        overflow := false } := by
    rw [← mask]
    rfl
  generalize (!(num.unsignedp || numPositive num precision)) = sign at shift ⊢
  rw [shift]
  change (numTrim _ precision).toNat.testBit i = _
  rw [numTrim_toNat fits, Nat.testBit_mod_two_pow]
  by_cases inside : i < precision
  · simp only [inside, decide_true, Bool.true_and]
    rw [CppNum.toNat_testBit_eq_bit]
    have signless : ∀ num : CppNum part, num.bit false i = num.bit sign i := by
      intro num
      have below : i < 2 * part := by omega
      simp only [CppNum.bit, below, if_true]
    rw [signless]
    split
    case isTrue whole =>
      rw [if_neg (by omega)]
      obtain low | ⟨low, high⟩ | above := bit_cases part i
      · rw [CppNum.bit_low _ _ low, signPart_getLsbD]
        simp [low]
      · rw [CppNum.bit_high _ _ low high, signPart_getLsbD]
        simp [show i - part < part by omega]
      · exact CppNum.bit_above _ _ above
    case isFalse partial' =>
      rw [shiftDown_eq_bit _ _ (by omega), rshiftExtend_bit fits trimmed]
  · simp [inside]

def CppNum.word (precision : Nat) (num : CppNum part) : BitVec precision :=
  BitVec.ofNat precision num.toNat

theorem CppNum.Trimmed.word_toNat (trimmed : num.Trimmed precision) :
    (num.word precision).toNat = num.toNat := by
  rw [CppNum.word, BitVec.toNat_ofNat, Nat.mod_eq_of_lt trimmed]

theorem CppNum.Trimmed.word_getLsbD (trimmed : num.Trimmed precision) (i : Nat) :
    (num.word precision).getLsbD i = num.bit false i := by
  rw [BitVec.getLsbD, trimmed.word_toNat, CppNum.toNat_testBit_eq_bit]

theorem CppNum.Trimmed.word_toInt (positive : 0 < precision) (trimmed : num.Trimmed precision) :
    (num.word precision).toInt = num.toInt precision := by
  have double := two_pow_pred positive
  rw [BitVec.toInt_eq_toNat_cond, trimmed.word_toNat, CppNum.toInt]
  split_ifs <;> omega

theorem CppNum.Trimmed.word_msb (positive : 0 < precision) (fits : precision ≤ 2 * part)
    (trimmed : num.Trimmed precision) :
    (num.word precision).msb = !numPositive num precision := by
  have sign := numPositive_iff positive fits trimmed
  rw [BitVec.msb_eq_decide, trimmed.word_toNat]
  cases nonnegative : numPositive num precision with
  | true =>
    have small := sign.mp nonnegative
    exact decide_eq_false (by omega)
  | false =>
    have large := mt sign.mpr (Bool.eq_false_iff.mp nonnegative)
    exact decide_eq_true (by omega)

theorem numRshift_toNat (positive : 0 < precision) (fits : precision ≤ 2 * part)
    (trimmed : num.Trimmed precision) (n : Nat) :
    ((numRshift num precision n).toNat : Int) =
      num.value precision num.unsignedp / (2 ^ n : Nat) % (2 ^ precision : Nat) := by
  have bits := numRshift_testBit fits trimmed n
  cases unsignedp : num.unsignedp with
  | true =>
    have word : (numRshift num precision n).toNat = (num.word precision >>> n).toNat := by
      apply Nat.eq_of_testBit_eq
      intro i
      rw [bits, unsignedp, BitVec.testBit_toNat, BitVec.getLsbD_ushiftRight,
        trimmed.word_getLsbD]
      by_cases kept : n + i < precision
      · simp [kept, show i < precision by omega]
      · simp [kept, trimmed.bit_of_le (not_lt.mp kept)]
    have natural : num.value precision true = num.toNat := rfl
    rw [word, BitVec.toNat_ushiftRight, Nat.shiftRight_eq_div_pow, trimmed.word_toNat, natural,
      ← Int.natCast_ediv, ← Int.natCast_mod,
      Nat.mod_eq_of_lt (lt_of_le_of_lt (Nat.div_le_self _ _) trimmed)]
  | false =>
    have word : (numRshift num precision n).toNat = ((num.word precision).sshiftRight n).toNat := by
      apply Nat.eq_of_testBit_eq
      intro i
      rw [bits, unsignedp, BitVec.testBit_toNat, BitVec.getLsbD_sshiftRight,
        trimmed.word_getLsbD, trimmed.word_msb positive fits, Bool.false_or]
      by_cases inside : i < precision
      · simp [inside]
      · simp [inside, not_lt.mp inside]
    have signed : num.value precision false = num.toInt precision := rfl
    rw [word, signed, ← trimmed.word_toInt positive, ← Int.shiftRight_eq_div_pow,
      ← BitVec.toInt_sshiftRight, BitVec.toInt_eq_toNat_bmod, Int.bmod_emod,
      Int.emod_eq_of_lt (Int.natCast_nonneg _) (by exact_mod_cast BitVec.isLt _)]

theorem numRshift_trimmed (fits : precision ≤ 2 * part) (num : CppNum part) (n : Nat) :
    (numRshift num precision n).Trimmed precision :=
  numTrim_trimmed fits _

def shiftUp (num : CppNum part) (n : Nat) : CppNum part :=
  let (moved, m) := if n ≥ part then ({ num with high := num.low, low := 0 }, n - part)
    else (num, n)
  if m ≠ 0 then
    { moved with
      high := moved.high <<< m ||| moved.low >>> (part - m)
      low := moved.low <<< m }
  else moved

theorem shiftUp_eq_bit (num : CppNum part) {n i : Nat} (small : n < 2 * part)
    (inside : i < 2 * part) :
    (shiftUp num n).bit false i = (decide (n ≤ i) && num.bit false (i - n)) := by
  have within : ∀ (num : CppNum part) (n : Nat), n < part →
      CppNum.bit (if n ≠ 0 then
        { num with
          high := num.high <<< n ||| num.low >>> (part - n)
          low := num.low <<< n }
        else num) false i = (decide (n ≤ i) && num.bit false (i - n)) := by
    intro num n small
    split
    case isTrue nonzero => exact shiftUp_bit num small inside
    case isFalse zero => simp [not_not.mp zero]
  by_cases parts : n ≥ part
  · simp only [shiftUp, parts, if_true]
    refine (within { num with high := num.low, low := 0 } (n - part) (by omega)).trans ?_
    rw [moveUp_bit num (by omega)]
    by_cases moved : n ≤ i
    · simp [moved, show n ≤ i + part by omega, show part ≤ i - (n - part) by omega,
        show i - (n - part) - part = i - n by omega]
    · by_cases crossed : n - part ≤ i
      · simp [moved, show ¬ part ≤ i - (n - part) by omega]
      · simp [moved, show ¬ n ≤ i + part by omega]
  · simp only [shiftUp, parts, if_false]
    exact within num n (not_le.mp parts)

theorem numLshift_toNat (fits : precision ≤ 2 * part) (num : CppNum part) (n : Nat) :
    (numLshift num precision n).toNat = num.toNat * 2 ^ n % 2 ^ precision := by
  by_cases whole : n ≥ precision
  · have zero : (numLshift num precision n).toNat = 0 := by
      rw [numLshift, if_pos whole]
      simp [CppNum.toNat]
    rw [zero, Nat.mod_eq_zero_of_dvd ((pow_dvd_pow 2 whole).mul_left _)]
  · have shift : (numLshift num precision n).toNat =
        (numTrim (shiftUp num n) precision).toNat := by
      have flagged : ∀ (moved : CppNum part) (flag : Bool),
          CppNum.toNat (if moved.unsignedp then { moved with overflow := false }
            else { moved with overflow := flag }) = moved.toNat := by
        intro moved flag
        split <;> rfl
      rw [numLshift, if_neg whole]
      exact flagged (numTrim (shiftUp num n) precision) _
    rw [shift, numTrim_toNat fits]
    apply Nat.eq_of_testBit_eq
    intro i
    rw [Nat.testBit_mod_two_pow, Nat.testBit_mod_two_pow, Nat.testBit_mul_two_pow]
    by_cases inside : i < precision
    · rw [CppNum.toNat_testBit_eq_bit, CppNum.toNat_testBit_eq_bit,
        shiftUp_eq_bit num (by omega) (by omega)]
    · simp [inside]

theorem shiftUp_unsignedp (num : CppNum part) (n : Nat) :
    (shiftUp num n).unsignedp = num.unsignedp := by
  unfold shiftUp
  by_cases parts : n ≥ part
  · simp only [parts, if_true]
    split <;> rfl
  · simp only [parts, if_false]
    split <;> rfl

theorem numLshift_eq {n : Nat} (small : n < precision) (signed : num.unsignedp = false) :
    numLshift num precision n =
      { numTrim (shiftUp num n) precision with
        overflow := !numEq num (numRshift (numTrim (shiftUp num n) precision) precision n) } := by
  have signedness : (numTrim (shiftUp num n) precision).unsignedp = false := by
    rw [numTrim_unsignedp, shiftUp_unsignedp, signed]
  have flagged : ∀ (moved : CppNum part) (flag : Bool), moved.unsignedp = false →
      (if moved.unsignedp then { moved with overflow := false }
        else { moved with overflow := flag }) = { moved with overflow := flag } := by
    intro moved flag clear
    simp only [clear, Bool.false_eq_true, if_false]
  rw [numLshift, if_neg (by omega)]
  exact flagged (numTrim (shiftUp num n) precision) _ signedness

theorem numLshift_trimmed (fits : precision ≤ 2 * part) (num : CppNum part) (n : Nat) :
    (numLshift num precision n).Trimmed precision := by
  rw [CppNum.Trimmed, numLshift_toNat fits]
  exact Nat.mod_lt _ (Nat.two_pow_pos precision)

@[simp]
theorem numLshift_unsignedp (num : CppNum part) (precision n : Nat) :
    (numLshift num precision n).unsignedp = num.unsignedp := by
  by_cases whole : n ≥ precision
  · rw [numLshift, if_pos whole]
  · cases signed : num.unsignedp with
    | false =>
      rw [numLshift_eq (not_le.mp whole) signed]
      exact (numTrim_unsignedp _ _).trans ((shiftUp_unsignedp num n).trans signed)
    | true =>
      have signedness : (numTrim (shiftUp num n) precision).unsignedp = true := by
        rw [numTrim_unsignedp, shiftUp_unsignedp, signed]
      rw [numLshift, if_neg whole]
      change CppNum.unsignedp
        (if (numTrim (shiftUp num n) precision).unsignedp then _ else _) = true
      rw [if_pos signedness]
      exact signedness

theorem numLshift_overflow (positive : 0 < precision) (fits : precision ≤ 2 * part)
    (n : Nat) (signed : num.unsignedp = false) :
    (numLshift num precision n).overflow = true ↔
      (numRshift (numLshift num precision n) precision n).toNat ≠ num.toNat := by
  have back : ∀ left right : CppNum part, left.Trimmed precision → left.toNat = right.toNat →
      left.unsignedp = right.unsignedp →
      (numRshift left precision n).toNat = (numRshift right precision n).toNat := by
    intro left right trimmed same signedness
    have first := numRshift_toNat positive fits trimmed n
    have second := numRshift_toNat positive fits
      (show right.Trimmed precision by rwa [CppNum.Trimmed, ← same]) n
    rw [CppNum.value, CppNum.toInt, same, signedness] at first
    rw [CppNum.value, CppNum.toInt, ← first] at second
    exact_mod_cast second.symm
  by_cases whole : n ≥ precision
  · have flag : (numLshift num precision n).overflow = !numZerop num := by
      rw [numLshift, if_pos whole, signed]
      rfl
    have zero : (numLshift num precision n).toNat = 0 := by
      rw [numLshift_toNat fits, Nat.mod_eq_zero_of_dvd ((pow_dvd_pow 2 whole).mul_left _)]
    have shifted := numRshift_toNat positive fits (numLshift_trimmed fits num n) n
    rw [CppNum.value, CppNum.toInt, zero, if_pos (Nat.two_pow_pos _)] at shifted
    have nothing : (numRshift (numLshift num precision n) precision n).toNat = 0 := by
      simpa using shifted
    rw [flag, nothing, Bool.not_eq_true', ← Bool.not_eq_true, numZerop_iff]
    omega
  · have shift := numLshift_eq (not_le.mp whole) signed
    have same := back _ (numTrim (shiftUp num n) precision) (numLshift_trimmed fits num n)
      (by rw [shift]; rfl) (by rw [shift])
    rw [same, shift, Bool.not_eq_true', ← Bool.not_eq_true, numEq_iff, ne_comm]

/-- Both shifts of a trimmed operand by any count. -/
theorem numShifts_correct (positive : 0 < precision) (fits : precision ≤ 2 * part)
    (trimmed : num.Trimmed precision) (n : Nat) :
    ((numRshift num precision n).toNat : Int) =
        num.value precision num.unsignedp / (2 ^ n : Nat) % (2 ^ precision : Nat) ∧
      ((numLshift num precision n).toNat : Int) =
        num.value precision num.unsignedp * (2 ^ n : Nat) % (2 ^ precision : Nat) ∧
      (num.unsignedp = false →
        ((numLshift num precision n).overflow = true ↔
          (numRshift (numLshift num precision n) precision n).toNat ≠ num.toNat)) := by
  refine ⟨numRshift_toNat positive fits trimmed n, ?_, numLshift_overflow positive fits n⟩
  rw [numLshift_toNat fits, Int.natCast_mod, Int.natCast_mul]
  exact ((CppNum.value_modEq num.unsignedp num).mul_right _).symm

/-- Minus one in a precision that ends in the high part. -/
theorem numShifts_correct_minus_one :
    ((numRshift (⟨0xff, 0xffffffff, false, false⟩ : CppNum 32) 40 33).toNat : Int) =
        CppNum.value 40 false (⟨0xff, 0xffffffff, false, false⟩ : CppNum 32) / (2 ^ 33 : Nat) %
          (2 ^ 40 : Nat) :=
  (@numShifts_correct 32 40 ⟨0xff, 0xffffffff, false, false⟩ (by decide) (by decide)
    (show _ < _ by decide) 33).1

end GccCil.Libcpp
