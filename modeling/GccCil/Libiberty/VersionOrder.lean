import GccCil.Libiberty.VersionCompare

/-!
# The order of version strings

`strverscmp` is a comparison after a common prefix, so it has a sign for each two different
strings.  It is no order only because digits of a fractional part past its leading zeros are
compared by the length of their run, but a zero is compared with them by its character.
-/

namespace GccCil.Libiberty.VersionCompare

open GccCil.Lib

abbrev Before (mode : Mode) : List UInt8 → List UInt8 → Prop := Precedes Mode.step rank mode

theorem current_ne {s1 s2 : List UInt8} (noNul1 : 0 ∉ s1) (noNul2 : 0 ∉ s2)
    (differ : s1.head? ≠ s2.head?) : current s1 ≠ current s2 := by
  cases s1 with
  | nil =>
    cases s2 with
    | nil => exact absurd rfl differ
    | cons c2 s2 =>
      rintro same
      exact noNul2 (List.mem_cons.mpr (Or.inl same))
  | cons c1 s1 =>
    cases s2 with
    | nil =>
      rintro same
      exact noNul1 (List.mem_cons.mpr (Or.inl same.symm))
    | cons c2 s2 => simpa [current] using differ

theorem compareDifferent_before (mode : Mode) {s1 s2 : List UInt8} (noNul1 : 0 ∉ s1)
    (noNul2 : 0 ∉ s2) (differ : s1.head? ≠ s2.head?) :
    (compareDifferent (mode.code ||| symbolOf (current s1)) s1 s2 < 0 ↔ Before mode s1 s2) ∧
    (0 < compareDifferent (mode.code ||| symbolOf (current s1)) s1 s2 ↔ Before mode s2 s1) := by
  unfold Before
  rw [precedes_of_heads differ, precedes_of_heads differ.symm]
  exact compareDifferent_iff mode (current_ne noNul1 noNul2 differ)

theorem compareLoop_iff (mode : Mode) {s1 s2 : List UInt8} (noNul1 : 0 ∉ s1) (noNul2 : 0 ∉ s2) :
    (compareLoop (mode.code ||| symbolOf (current s1)) s1 s2 < 0 ↔ Before mode s1 s2) ∧
    (0 < compareLoop (mode.code ||| symbolOf (current s1)) s1 s2 ↔ Before mode s2 s1) := by
  induction s1 generalizing mode s2 with
  | nil =>
    rw [compareLoop.eq_2 _ _ _ (by simp)]
    cases s2 with
    | nil =>
      have never : ¬ Before mode [] [] := Precedes.irrefl []
      have zero : compareDifferent (mode.code ||| symbolOf (current [])) [] [] = 0 := by
        cases mode <;> rfl
      simp [zero, never]
    | cons c2 s2 => exact compareDifferent_before mode noNul1 noNul2 (by simp)
  | cons c1 s1 ih =>
    cases s2 with
    | nil =>
      rw [compareLoop.eq_2 _ _ _ (by simp)]
      exact compareDifferent_before mode noNul1 noNul2 (by simp)
    | cons c2 s2 =>
      rw [compareLoop]
      by_cases same : c1 = c2
      · subst same
        rw [if_pos rfl]
        simp only [List.mem_cons, not_or] at noNul1 noNul2
        have rest := ih (mode.step c1) noNul1.2 noNul2.2
        rw [← nextState_code mode c1] at rest
        unfold Before
        rw [precedes_cons, precedes_cons]
        exact rest
      · rw [if_neg same]
        exact compareDifferent_before mode noNul1 noNul2 (by simpa using same)

theorem before_total (mode : Mode) {s1 s2 : List UInt8} (noNul1 : 0 ∉ s1) (noNul2 : 0 ∉ s2)
    (differ : s1 ≠ s2) : Before mode s1 s2 ∨ Before mode s2 s1 := by
  refine @Precedes.total _ _ _ _ Mode.step rank (fun s => 0 ∉ s) ?_ ?_ mode s1 s2 noNul1 noNul2
    differ
  · intro c s noNul member
    exact noNul (List.mem_cons_of_mem c member)
  · intro mode s1 s2 noNul1 noNul2 heads same
    have chars : (current s1).toNat = (current s2).toNat := by
      have parts := congrArg (fun key => (ofLex (ofLex key).2).2) same
      simpa [rank] using parts
    exact current_ne noNul1 noNul2 heads (UInt8.toNat_inj.mp chars)

def modeOf : List UInt8 → Mode
  | [] => .normal
  | c :: digits =>
    if c = 0x30 then if digits.all (· == 0x30) then .leadingZeros else .fractional
    else .integral

theorem modeOf_concat (digits : List UInt8) {c : UInt8} (digit : isDigit c) :
    modeOf (digits ++ [c]) = (modeOf digits).step c := by
  cases digits with
  | nil =>
    simp only [List.nil_append, modeOf, Mode.step, digit, List.all_nil, if_true]
  | cons d digits =>
    simp only [List.cons_append, modeOf, Mode.step, digit, if_true, List.all_append,
      List.all_cons, List.all_nil, Bool.and_true, Bool.and_eq_true, beq_iff_eq]
    split_ifs <;> grind

theorem foldl_step (common : List UInt8) :
    common.foldl Mode.step .normal = modeOf (common.rtakeWhile isDigit) := by
  induction common using List.reverseRecOn with
  | nil => rfl
  | append_singleton common c ih =>
    rw [List.foldl_append, List.foldl_cons, List.foldl_nil, ih, List.rtakeWhile_concat]
    cases digit : isDigit c with
    | false => simp [Mode.step, digit, modeOf]
    | true =>
      rw [if_pos rfl, modeOf_concat _ digit]

/-- The string ends in a fractional part, past its leading zeros. -/
def InFraction (common : List UInt8) : Prop :=
  ∃ digits, common.rtakeWhile isDigit = 0x30 :: digits ∧ ∃ d ∈ digits, d ≠ 0x30

theorem foldl_step_eq_fractional (common : List UInt8) :
    common.foldl Mode.step .normal = .fractional ↔ InFraction common := by
  rw [foldl_step, InFraction]
  cases common.rtakeWhile isDigit with
  | nil => simp [modeOf]
  | cons c digits =>
    simp only [modeOf, List.cons.injEq]
    by_cases zero : c = 0x30
    · simp only [zero, if_true, true_and]
      split_ifs with zeros
      · simpa using zeros
      · simpa using zeros
    · simp [zero]

def isNonzeroDigit (c : UInt8) : Bool := isDigit c && c != 0x30

/-- The first place where the strings differ has in `right` the smaller character.  It is
a zero, or the character of `left` is no digit. -/
def Falls (left right : List UInt8) : Prop :=
  ∃ (common : List UInt8) (x y : UInt8) (leftRest rightRest : List UInt8),
    left = common ++ x :: leftRest ∧ right = common ++ y :: rightRest ∧ y < x ∧
    (y = 0x30 ∨ isDigit x = false)

/-- The strings that `strverscmp` puts in a circle.  They agree up to a place in a
fractional part.  There `left` and `right` have the same digit and `middle` has another one;
none is zero.  The runs of digits that follow put `middle` between the others, but `right`
is smaller than `left` where these first differ. -/
def Knot (left middle right : List UInt8) : Prop :=
  ∃ (common : List UInt8) (d d' : UInt8) (leftRest middleRest rightRest : List UInt8),
    left = common ++ d :: leftRest ∧ middle = common ++ d' :: middleRest ∧
    right = common ++ d :: rightRest ∧ InFraction common ∧
    isNonzeroDigit d ∧ isNonzeroDigit d' ∧ d' ≠ d ∧
    (digitRun leftRest < digitRun middleRest ∨
      digitRun leftRest = digitRun middleRest ∧ d < d') ∧
    (digitRun middleRest < digitRun rightRest ∨
      digitRun middleRest = digitRun rightRest ∧ d' < d) ∧
    Falls leftRest rightRest

theorem isDigit_of_run {c : UInt8} {s : List UInt8} {n : Nat} (longer : n < digitRun (c :: s)) :
    isDigit c = true := by
  rw [digitRun_cons] at longer
  by_contra other
  rw [if_neg other] at longer
  exact absurd longer (Nat.not_lt_zero n)

theorem before_of_shorter {s1 s2 : List UInt8} (shorter : digitRun s1 < digitRun s2) :
    Before .integral s1 s2 := by
  induction s1 generalizing s2 with
  | nil =>
    cases s2 with
    | nil => exact absurd shorter (Nat.lt_irrefl _)
    | cons c2 s2 =>
      have digit := isDigit_of_run shorter
      refine Precedes.heads (by simp) ((rank_lt_iff _ _ _).mpr (Or.inl ?_))
      have last : isDigit 0 = false := by decide
      simp [kind, current, digit, last]
  | cons c1 s1 ih =>
    cases s2 with
    | nil => exact absurd shorter (Nat.not_lt_zero _)
    | cons c2 s2 =>
      have digit2 := isDigit_of_run shorter
      by_cases same : c1 = c2
      · subst same
        rw [digitRun_cons, digitRun_cons, digit2] at shorter
        refine Precedes.tails c1 ?_
        simp only [Mode.step, digit2, if_true]
        exact ih (by simpa using shorter)
      · refine Precedes.heads (by simpa using same) ((rank_lt_iff _ _ _).mpr ?_)
        cases digit1 : isDigit c1 with
        | false => exact Or.inl (by simp [kind, current, digit1, digit2])
        | true =>
          refine Or.inr ⟨by simp [kind, current, digit1, digit2], Or.inl ?_⟩
          simpa [measured, current, digit1, digit2] using shorter

/-- In a fractional part the order of the ranks is the order of the characters where a zero
or another end of the digits is met. -/
theorem rank_fractional {c1 c2 : UInt8} {s1 s2 : List UInt8}
    (shorter : digitRun (c1 :: s1) < digitRun (c2 :: s2)) (differ : c1 ≠ c2) :
    rank .fractional (c2 :: s2) < rank .fractional (c1 :: s1) ↔
      c2 < c1 ∧ (c2 = 0x30 ∨ isDigit c1 = false) := by
  have digit2 := isDigit_of_run shorter
  have apart : c1.toNat ≠ c2.toNat := fun same => differ (UInt8.toNat_inj.mp same)
  have small : ∀ c : UInt8, c ≤ 0x30 ↔ c.toNat ≤ 48 := fun c => UInt8.le_iff_toNat_le
  have zero : ∀ c : UInt8, c = 0x30 ↔ c.toNat = 48 := fun c => UInt8.toNat_inj.symm
  rw [rank_lt_iff]
  rcases symbolOf_cases c1 with ⟨_, digit1, bounds1⟩ | ⟨_, digit1, bounds1⟩ | ⟨_, digit1, bounds1⟩ <;>
  rcases symbolOf_cases c2 with ⟨_, digit, bounds2⟩ | ⟨_, digit, bounds2⟩ | ⟨_, digit, bounds2⟩ <;>
  simp [kind, measured, current, small, zero, digit1, digit, UInt8.lt_iff_toNat_lt] <;>
  grind

theorem falls_iff {left right : List UInt8} (shorter : digitRun left < digitRun right) :
    Before .fractional right left ↔ Falls left right := by
  induction left generalizing right with
  | nil =>
    constructor
    · intro before
      cases before with
      | heads _ less =>
        rw [rank_lt_iff] at less
        have last : current [] = 0 := rfl
        simp [kind, measured, last] at less
    · rintro ⟨common, x, y, leftRest, rightRest, first, _⟩
      simp at first
  | cons x left ih =>
    cases right with
    | nil => exact absurd shorter (Nat.not_lt_zero _)
    | cons y right =>
      have digit := isDigit_of_run shorter
      by_cases same : x = y
      · subst same
        have next : Mode.step .fractional x = .fractional := by simp [Mode.step, digit]
        rw [digitRun_cons, digitRun_cons, digit] at shorter
        unfold Before
        rw [precedes_cons, next]
        refine (ih (by simpa using shorter)).trans ?_
        constructor
        · rintro ⟨common, x', y', leftRest, rightRest, rfl, rfl, rest⟩
          exact ⟨x :: common, x', y', leftRest, rightRest, rfl, rfl, rest⟩
        · rintro ⟨common, x', y', leftRest, rightRest, first, second, less, rest⟩
          cases common with
          | nil =>
            simp only [List.nil_append, List.cons.injEq] at first second
            rw [← first.1, ← second.1] at less
            exact absurd less (UInt8.lt_irrefl x)
          | cons c common =>
            simp only [List.cons_append, List.cons.injEq] at first second
            exact ⟨common, x', y', leftRest, rightRest, first.2, second.2, less, rest⟩
      · have heads : (y :: right).head? ≠ (x :: left).head? := by
          simpa using Ne.symm same
        unfold Before
        rw [precedes_of_heads heads, rank_fractional shorter same]
        constructor
        · rintro ⟨less, rest⟩
          exact ⟨[], x, y, left, right, rfl, rfl, less, rest⟩
        · rintro ⟨common, x', y', leftRest, rightRest, first, second, less, rest⟩
          cases common with
          | nil =>
            simp only [List.nil_append, List.cons.injEq] at first second
            rw [first.1, second.1]
            exact ⟨less, rest⟩
          | cons c common =>
            simp only [List.cons_append, List.cons.injEq] at first second
            exact absurd (first.1.trans second.1.symm) same

theorem run_of_rank_lt {mode : Mode} {d : UInt8} {s1 s2 : List UInt8}
    (less : rank mode (d :: s1) < rank mode (d :: s2)) :
    measured mode d = true ∧ isDigit d = true ∧ digitRun s1 < digitRun s2 := by
  rw [rank_lt_iff] at less
  simp only [current, List.headD_cons, lt_irrefl, and_false, or_false, true_and, false_or] at less
  cases run : measured mode d with
  | false => simp [run] at less
  | true =>
    have digit : isDigit d = true := by
      cases mode <;> simp_all [measured]
    simp only [run, if_true, digitRun_cons, digit] at less
    exact ⟨rfl, digit, by omega⟩

theorem rank_fractional_digit {d : UInt8} (digit : isNonzeroDigit d) (s : List UInt8) :
    rank .fractional (d :: s) = toLex (1, toLex (digitRun s + 1, d.toNat)) := by
  simp only [isNonzeroDigit, Bool.and_eq_true, bne_iff_ne] at digit
  have large : ¬ d ≤ 0x30 := by
    intro small
    have bounds : 48 ≤ d.toNat ∧ d.toNat ≤ 57 := by
      simpa [isDigit, UInt8.le_iff_toNat_le] using digit.1
    exact digit.2 (UInt8.toNat_inj.mp (le_antisymm (UInt8.le_iff_toNat_le.mp small) bounds.1))
  simp [rank, kind, measured, current, digit.1, digit.2, large, digitRun_cons]

theorem nonzero_of_between {d : UInt8} {s1 s2 : List UInt8} {middle : List UInt8}
    (digit : isNonzeroDigit d) (below : rank .fractional (d :: s1) < rank .fractional middle)
    (above : rank .fractional middle < rank .fractional (d :: s2)) :
    ∃ d' rest, middle = d' :: rest ∧ isNonzeroDigit d' := by
  rw [rank_fractional_digit digit, rank, Prod.Lex.toLex_lt_toLex] at below above
  have one : kind .fractional (current middle) = 1 := by
    simp only at below above
    omega
  have nonzero : isNonzeroDigit (current middle) := by
    simp only [kind] at one
    split_ifs at one with small digit
    · have apart : current middle ≠ 0x30 := fun zero => small (by rw [zero]; decide)
      simp [isNonzeroDigit, digit, apart]
    · exact absurd one (by decide)
  cases middle with
  | nil => exact absurd nonzero (by decide)
  | cons d' rest => exact ⟨d', rest, rfl, nonzero⟩

theorem detour_iff_knot (left middle right : List UInt8) :
    Detour Mode.step rank .normal left middle right ↔ Knot left middle right := by
  constructor
  · rintro ⟨common, d, leftRest, middleRest, rightRest, rfl, rfl, rfl, differ, below, above, back⟩
    obtain ⟨run, digit, shorter⟩ := run_of_rank_lt (lt_trans below above)
    have notIntegral : (common.foldl Mode.step .normal).step d ≠ .integral := by
      intro integral
      rw [integral] at back
      exact Precedes.asymm back (before_of_shorter shorter)
    have mode : common.foldl Mode.step .normal = .fractional := by
      cases state : common.foldl Mode.step .normal with
      | fractional => rfl
      | normal => simp_all [measured, Mode.step]
      | integral => simp_all [Mode.step]
      | leadingZeros => simp [state, measured] at run
    rw [mode] at run below above back
    have nonzero : isNonzeroDigit d := run
    have step : Mode.step .fractional d = .fractional := by simp [Mode.step, digit]
    obtain ⟨d', rest, rfl, nonzero'⟩ := nonzero_of_between nonzero below above
    have falls := (falls_iff shorter).mp (step ▸ back)
    simp only [rank_fractional_digit nonzero, rank_fractional_digit nonzero',
      Prod.Lex.toLex_lt_toLex, lt_irrefl, false_or, true_and, Nat.add_lt_add_iff_right,
      Nat.add_right_cancel_iff] at below above
    exact ⟨common, d, d', leftRest, rest, rightRest, rfl, rfl, rfl,
      (foldl_step_eq_fractional common).mp mode, nonzero, nonzero', by simpa using differ,
      below, above, falls⟩
  · rintro ⟨common, d, d', leftRest, middleRest, rightRest, rfl, rfl, rfl, fraction, nonzero,
      nonzero', differ, below, above, falls⟩
    have mode := (foldl_step_eq_fractional common).mpr fraction
    have shorter : digitRun leftRest < digitRun rightRest := by
      rcases below with below | ⟨belowRun, belowChar⟩
      · rcases above with above | ⟨aboveRun, _⟩
        · omega
        · omega
      · rcases above with above | ⟨aboveRun, aboveChar⟩
        · omega
        · exact absurd (UInt8.lt_trans belowChar aboveChar) (UInt8.lt_irrefl d)
    have digit : isDigit d = true := by
      simp only [isNonzeroDigit, Bool.and_eq_true] at nonzero
      exact nonzero.1
    have step : Mode.step .fractional d = .fractional := by simp [Mode.step, digit]
    refine ⟨common, d, leftRest, d' :: middleRest, rightRest, rfl, rfl, rfl,
      by simpa using differ, ?_⟩
    rw [mode, step]
    simp only [rank_fractional_digit nonzero, rank_fractional_digit nonzero',
      Prod.Lex.toLex_lt_toLex, lt_irrefl, false_or, true_and, Nat.add_lt_add_iff_right,
      Nat.add_right_cancel_iff]
    exact ⟨below, above, (falls_iff shorter).mpr falls⟩

theorem strverscmp_iff (s1 s2 : CString) :
    (strverscmp s1 s2 < 0 ↔ Before .normal s1.bytes s2.bytes) ∧
    (0 < strverscmp s1 s2 ↔ Before .normal s2.bytes s1.bytes) :=
  compareLoop_iff .normal s1.noNul s2.noNul

/-- `strverscmp` orders three strings: exchange of the arguments exchanges the sign, the
result is 0 for equal strings only, and what is not after the next is not after the last. -/
def Ordered (a b c : CString) : Prop :=
  (strverscmp b a).sign = -(strverscmp a b).sign ∧
  (strverscmp a b = 0 ↔ a = b) ∧
  (strverscmp a b ≤ 0 → strverscmp b c ≤ 0 → strverscmp a c ≤ 0)

theorem strverscmp_swap (s1 s2 : CString) :
    (strverscmp s2 s1).sign = -(strverscmp s1 s2).sign := by
  have forward := strverscmp_iff s1 s2
  have backward := strverscmp_iff s2 s1
  rcases lt_trichotomy (strverscmp s1 s2) 0 with less | equal | more
  · rw [Int.sign_eq_neg_one_of_neg less,
      Int.sign_eq_one_of_pos (backward.2.mpr (forward.1.mp less)), Int.neg_neg]
  · have notLess : ¬ strverscmp s2 s1 < 0 := by
      rw [backward.1, ← forward.2]
      omega
    have notMore : ¬ 0 < strverscmp s2 s1 := by
      rw [backward.2, ← forward.1]
      omega
    rw [equal, (by omega : strverscmp s2 s1 = 0)]
    rfl
  · rw [Int.sign_eq_one_of_pos more,
      Int.sign_eq_neg_one_of_neg (backward.1.mpr (forward.2.mp more))]

theorem strverscmp_eq_zero (s1 s2 : CString) : strverscmp s1 s2 = 0 ↔ s1 = s2 := by
  have signs := strverscmp_iff s1 s2
  constructor
  · intro zero
    by_contra differ
    have bytes : s1.bytes ≠ s2.bytes := by
      intro same
      cases s1
      cases s2
      exact differ (by simpa using same)
    rcases before_total .normal s1.noNul s2.noNul bytes with before | before
    · have less := signs.1.mpr before
      omega
    · have more := signs.2.mpr before
      omega
  · rintro rfl
    have notLess := signs.1.not.mpr (Precedes.irrefl _)
    have notMore := signs.2.not.mpr (Precedes.irrefl _)
    omega

theorem strverscmp_nonpos_iff (s1 s2 : CString) :
    strverscmp s1 s2 ≤ 0 ↔ s1 = s2 ∨ Before .normal s1.bytes s2.bytes := by
  rw [← (strverscmp_iff s1 s2).1, ← strverscmp_eq_zero, or_comm, ← le_iff_lt_or_eq]

/-- `strverscmp` orders three strings exactly when they do not form a knot. -/
theorem ordered_iff_not_knot (a b c : CString) :
    Ordered a b c ↔
      ¬ (Knot a.bytes b.bytes c.bytes ∨ Knot b.bytes c.bytes a.bytes ∨
        Knot c.bytes a.bytes b.bytes) := by
  simp only [← detour_iff_knot]
  constructor
  · rintro ⟨_, _, transitive⟩ knot
    have cycle : Before .normal a.bytes b.bytes ∧ Before .normal b.bytes c.bytes ∧
        Before .normal c.bytes a.bytes := by
      rcases knot with detour | detour | detour
      · exact detour.cycle
      · exact ⟨detour.cycle.2.2, detour.cycle.1, detour.cycle.2.1⟩
      · exact ⟨detour.cycle.2.1, detour.cycle.2.2, detour.cycle.1⟩
    have first := ((strverscmp_iff a b).1.mpr cycle.1).le
    have second := ((strverscmp_iff b c).1.mpr cycle.2.1).le
    have third := (strverscmp_iff a c).2.mpr cycle.2.2
    have last := transitive first second
    omega
  · intro free
    refine ⟨strverscmp_swap a b, strverscmp_eq_zero a b, ?_⟩
    intro first second
    by_contra more
    have back : Before .normal c.bytes a.bytes := (strverscmp_iff a c).2.mp (by omega)
    rcases (strverscmp_nonpos_iff a b).mp first with rfl | ab
    · exact more second
    · rcases (strverscmp_nonpos_iff b c).mp second with rfl | bc
      · exact more first
      · exact free (detour_of_cycle ab bc back)

/-- `"0115"`, `"01299"` and `"0110999"` are in a circle: the first digit after `"01"` is
compared by the length of its run, the zero after `"011"` is not. -/
theorem strverscmp_circle :
    ∃ a b c : CString, strverscmp a b < 0 ∧ strverscmp b c < 0 ∧ strverscmp c a < 0 ∧
      ¬ Ordered a b c := by
  refine ⟨⟨[0x30, 0x31, 0x31, 0x35], by decide⟩, ⟨[0x30, 0x31, 0x32, 0x39, 0x39], by decide⟩,
    ⟨[0x30, 0x31, 0x31, 0x30, 0x39, 0x39, 0x39], by decide⟩, by decide, by decide, by decide, ?_⟩
  rintro ⟨_, _, transitive⟩
  exact absurd (transitive (by decide) (by decide)) (by decide)

end GccCil.Libiberty.VersionCompare
