import GccCil.Libcpp.Charset
import Mathlib.Tactic.Ring

/-!
# One character in UTF-8

The table of `charset.c` says which bytes encode a value.  The encoder writes
these bytes.  The decoder reads them, except where the first byte is `F9` or
`FB`, and it reads nothing else.
-/

namespace GccCil.Libcpp.Charset

/-- The last `count` bytes of a sequence, with six bits each. -/
def trail : Nat → Nat → List UInt8
  | 0, _ => []
  | count + 1, c => UInt8.ofNat (0x80 + c / 64 ^ count % 64) :: trail count c

def row (pattern count c : Nat) : List UInt8 :=
  UInt8.ofNat (pattern + c / 64 ^ count) :: trail count c

def utf8 (c : Nat) : List UInt8 :=
  if c ≤ 0x7F then row 0x00 0 c
  else if c ≤ 0x7FF then row 0xC0 1 c
  else if c ≤ 0xFFFF then row 0xE0 2 c
  else if c ≤ 0x1FFFFF then row 0xF0 3 c
  else if c ≤ 0x3FFFFFF then row 0xF8 4 c
  else row 0xFC 5 c

def Character (c : Nat) : Prop := c ≤ 0x7FFFFFFF ∧ ¬IsSurrogate c

instance (c : Nat) : Decidable (Character c) := inferInstanceAs (Decidable (_ ∧ _))

/-- The first byte is `F9` or `FB`. -/
def Missed (c : Nat) : Prop := c / 0x1000000 = 1 ∨ c / 0x1000000 = 3

instance (c : Nat) : Decidable (Missed c) := inferInstanceAs (Decidable (_ ∨ _))

theorem length_trail (count c : Nat) : (trail count c).length = count := by
  induction count with
  | zero => rfl
  | succ count ih => rw [trail, List.length_cons, ih]

theorem trail_add_mul (count x y : Nat) : trail count (y * 64 ^ count + x) = trail count x := by
  have general : ∀ more z, trail count (z * 64 ^ (count + more) + x) = trail count x := by
    induction count with
    | zero => intros; rfl
    | succ count ih =>
      intro more z
      have shifted : z * 64 ^ (count + 1 + more) = z * 64 ^ (count + (more + 1)) := by
        congr 2
        omega
      have split : z * 64 ^ (count + (more + 1)) + x = x + 64 ^ count * (64 * (64 ^ more * z)) := by
        rw [Nat.pow_add, Nat.pow_succ]
        ring
      rw [trail, trail, shifted, ih (more + 1) z, split,
        Nat.add_mul_div_left _ _ (Nat.pow_pos (by decide)), Nat.add_mul_mod_self_left]
  exact general 0 y

theorem toNat_byte {n : Nat} (byte : n < 256) : (UInt8.ofNat n).toNat = n :=
  UInt8.toNat_ofNat_of_lt' byte

set_option maxRecDepth 8000 in
theorem byte_continues (n : UInt8) :
    n.toNat &&& 0xC0 = 0x80 ↔ 0x80 ≤ n.toNat ∧ n.toNat < 0xC0 := by
  have all : ∀ n < 256, n &&& 0xC0 = 0x80 ↔ 0x80 ≤ n ∧ n < 0xC0 := by decide
  exact all n.toNat n.toNat_lt

theorem byte_bits (n : UInt8) : n.toNat &&& 0x3F = n.toNat % 64 :=
  Nat.and_two_pow_sub_one_eq_mod n.toNat 6

theorem continueSequence_iff {count c value : Nat} {inbuf rest : List UInt8}
    (fits : (c + 1) * 64 ^ count ≤ 2 ^ 32) :
    continueSequence count c inbuf = .ok (value, rest) ↔
      ∃ x < 64 ^ count, inbuf = trail count x ++ rest ∧ value = c * 64 ^ count + x := by
  induction count generalizing c inbuf with
  | zero =>
    simp only [continueSequence, Except.ok.injEq, Prod.mk.injEq, Nat.pow_zero, Nat.lt_one_iff,
      exists_eq_left, trail, List.nil_append, Nat.mul_one, Nat.add_zero]
    exact ⟨fun ⟨same, all⟩ => ⟨all, same.symm⟩, fun ⟨all, same⟩ => ⟨same.symm, all⟩⟩
  | succ count ih =>
    have positive : 0 < 64 ^ count := Nat.pow_pos (by decide)
    rw [Nat.pow_succ] at fits
    cases inbuf with
    | nil =>
      simp [continueSequence, trail]
    | cons n inbuf =>
      rw [continueSequence]
      by_cases continues : n.toNat &&& 0xC0 = 0x80
      · obtain ⟨low, high⟩ := (byte_continues n).mp continues
        have digit : n.toNat % 64 + 0x80 = n.toNat := by omega
        have digitLt : n.toNat % 64 < 64 := Nat.mod_lt _ (by decide)
        have room : (c * 64 + n.toNat % 64 + 1) * 64 ^ count ≤ 2 ^ 32 := by
          refine le_trans ?_ fits
          calc (c * 64 + n.toNat % 64 + 1) * 64 ^ count
              ≤ (c + 1) * 64 * 64 ^ count := Nat.mul_le_mul_right _ (by omega)
            _ = (c + 1) * (64 ^ count * 64) := by ring
        have noWrap : c * 64 + n.toNat % 64 < 2 ^ 32 := by
          have := Nat.le_mul_of_pos_right (c * 64 + n.toNat % 64 + 1) positive
          omega
        rw [if_neg (not_not.mpr continues), byte_bits, Nat.shiftLeft_eq,
          Nat.mod_eq_of_lt (by omega), ih (by simpa using room)]
        constructor
        · rintro ⟨x, xLt, isInbuf, isValue⟩
          refine ⟨n.toNat % 64 * 64 ^ count + x, ?_, ?_, ?_⟩
          · have whole : (n.toNat % 64 + 1) * 64 ^ count ≤ 64 * 64 ^ count :=
              Nat.mul_le_mul_right _ digitLt
            rw [Nat.succ_mul] at whole
            rw [Nat.pow_succ]
            omega
          · have top : (n.toNat % 64 * 64 ^ count + x) / 64 ^ count = n.toNat % 64 := by
              rw [Nat.mul_comm, Nat.mul_add_div positive, Nat.div_eq_of_lt xLt, Nat.add_zero]
            rw [trail, top, trail_add_mul, isInbuf, Nat.mod_mod, Nat.add_comm, digit,
              UInt8.ofNat_toNat, List.cons_append]
          · rw [isValue, Nat.pow_succ]
            ring
        · rintro ⟨x, xLt, isInbuf, isValue⟩
          have topLt : x / 64 ^ count < 64 := by
            rw [Nat.div_lt_iff_lt_mul positive, Nat.mul_comm, ← Nat.pow_succ]
            exact xLt
          rw [trail, List.cons_append, List.cons.injEq] at isInbuf
          obtain ⟨isByte, isInbuf⟩ := isInbuf
          have isDigit : n.toNat % 64 = x / 64 ^ count := by
            rw [isByte, Nat.mod_eq_of_lt topLt, toNat_byte (by omega)]
            generalize x / 64 ^ count = digit at topLt
            omega
          have parts := Nat.div_add_mod x (64 ^ count)
          refine ⟨x % 64 ^ count, Nat.mod_lt _ positive, ?_, ?_⟩
          · rw [isInbuf]
            nth_rewrite 1 [← parts]
            rw [Nat.mul_comm, trail_add_mul]
          · rw [isValue, isDigit, Nat.pow_succ]
            calc c * (64 ^ count * 64) + x
                = c * (64 ^ count * 64) + (64 ^ count * (x / 64 ^ count) + x % 64 ^ count) := by
                  rw [parts]
              _ = (c * 2 ^ 6 + x / 64 ^ count) * 64 ^ count + x % 64 ^ count := by ring
      · rw [if_pos continues]
        simp only [reduceCtorEq, false_iff, not_exists, not_and]
        intro x xLt isInbuf
        rw [trail, List.cons_append, List.cons.injEq] at isInbuf
        have digitLt := Nat.mod_lt (x / 64 ^ count) (show 0 < 64 by decide)
        refine absurd ((byte_continues n).mpr ?_) continues
        rw [isInbuf.1, toNat_byte (by omega)]
        omega

theorem oneUtf8ToCppchar_row {pattern count top c : Nat} {inbuf rest : List UInt8}
    (large : 0x80 ≤ pattern + top) (byte : pattern + top < 256)
    (found : sequenceLength (pattern + top) = some (count + 1))
    (masked : (pattern + top) &&& decodingMasks.getD count 0 = top)
    (fits : (top + 1) * 64 ^ count ≤ 2 ^ 31) :
    oneUtf8ToCppchar (UInt8.ofNat (pattern + top) :: inbuf) = .ok (c, rest) ↔
      UInt8.ofNat (pattern + top) :: inbuf = row pattern count c ++ rest ∧
        c / 64 ^ count = top ∧ ¬Overlong (count + 1) c ∧ ¬IsSurrogate c := by
  have positive : 0 < 64 ^ count := Nat.pow_pos (by decide)
  have wide : (top + 1) * 64 ^ count ≤ 2 ^ 32 := fits.trans (by decide)
  simp only [oneUtf8ToCppchar, toNat_byte byte, if_neg (Nat.not_lt.mpr large), found,
    Nat.add_sub_cancel, masked]
  constructor
  · intro decoded
    split at decoded
    · cases decoded
    · cases continued : continueSequence count top inbuf with
      | error errno =>
        rw [continued] at decoded
        cases decoded
      | ok value =>
        obtain ⟨value, other⟩ := value
        obtain ⟨x, xLt, isInbuf, isValue⟩ := (continueSequence_iff wide).mp continued
        rw [continued] at decoded
        simp only [Except.bind] at decoded
        split at decoded
        · cases decoded
        · rename_i notOverlong
          split at decoded
          · cases decoded
          · rename_i valid
            cases decoded
            have isTop : c / 64 ^ count = top := by
              rw [isValue, Nat.mul_comm, Nat.mul_add_div positive, Nat.div_eq_of_lt xLt,
                Nat.add_zero]
            refine ⟨?_, isTop, notOverlong, fun surrogate => valid (Or.inr surrogate)⟩
            rw [row, isTop, isValue, trail_add_mul, isInbuf, List.cons_append]
  · rintro ⟨isRow, isTop, notOverlong, notSurrogate⟩
    rw [row, isTop, List.cons_append, List.cons.injEq] at isRow
    have parts := Nat.div_add_mod c (64 ^ count)
    rw [isTop, Nat.mul_comm] at parts
    have small := Nat.mod_lt c positive
    have continued : continueSequence count top inbuf = .ok (c, rest) := by
      rw [continueSequence_iff wide]
      refine ⟨c % 64 ^ count, small, ?_, parts.symm⟩
      rw [isRow.2]
      nth_rewrite 1 [← parts]
      rw [trail_add_mul]
    have short : ¬inbuf.length + 1 < count + 1 := by
      rw [isRow.2, List.length_append, length_trail]
      omega
    have bounded : ¬(c > 0x7FFFFFFF ∨ IsSurrogate c) := by
      rintro (large | surrogate)
      · rw [Nat.succ_mul] at fits
        omega
      · exact notSurrogate surrogate
    rw [if_neg short, continued]
    simp only [Except.bind, if_neg notOverlong, if_neg bounded]

def rows : List (Nat × Nat) := [(0xC0, 1), (0xE0, 2), (0xF0, 3), (0xF8, 4), (0xFC, 5)]

set_option maxRecDepth 8000 in
theorem row_of_found {first : Nat} (byte : first < 256) (large : 0x80 ≤ first) :
    sequenceLength first = none ∨
      ∃ entry ∈ rows, ∃ top < 2 ^ (6 - entry.2),
        ¬(entry.2 = 4 ∧ top % 2 = 1) ∧ first = entry.1 + top := by
  have all : ∀ first < 256, 0x80 ≤ first → sequenceLength first = none ∨
      ∃ entry ∈ rows, ∃ top < 2 ^ (6 - entry.2),
        ¬(entry.2 = 4 ∧ top % 2 = 1) ∧ first = entry.1 + top := by decide
  exact all first byte large

theorem found_of_row {pattern count top : Nat} (isRow : (pattern, count) ∈ rows)
    (small : top < 2 ^ (6 - count)) (taken : ¬(count = 4 ∧ top % 2 = 1)) :
    (0x80 ≤ pattern + top ∧ pattern + top < 256) ∧
      sequenceLength (pattern + top) = some (count + 1) ∧
      (pattern + top) &&& decodingMasks.getD count 0 = top ∧ (top + 1) * 64 ^ count ≤ 2 ^ 31 := by
  have all : ∀ entry ∈ rows, ∀ top < 2 ^ (6 - entry.2), ¬(entry.2 = 4 ∧ top % 2 = 1) →
      (0x80 ≤ entry.1 + top ∧ entry.1 + top < 256) ∧
        sequenceLength (entry.1 + top) = some (entry.2 + 1) ∧
        (entry.1 + top) &&& decodingMasks.getD entry.2 0 = top ∧
        (top + 1) * 64 ^ entry.2 ≤ 2 ^ 31 := by
    decide
  exact all (pattern, count) isRow top small taken

theorem utf8_of_row {pattern count c : Nat} (isRow : (pattern, count) ∈ rows)
    (small : c / 64 ^ count < 2 ^ (6 - count)) (notOverlong : ¬Overlong (count + 1) c) :
    utf8 c = row pattern count c ∧ 0x80 ≤ c ∧ c ≤ 0x7FFFFFFF ∧
      (Missed c ↔ count = 4 ∧ c / 64 ^ count % 2 = 1) := by
  unfold Overlong at notOverlong
  unfold utf8 Missed
  simp only [rows, List.mem_cons, Prod.mk.injEq, List.not_mem_nil, or_false] at isRow
  obtain ⟨rfl, rfl⟩ | ⟨rfl, rfl⟩ | ⟨rfl, rfl⟩ | ⟨rfl, rfl⟩ | ⟨rfl, rfl⟩ := isRow
  · rw [if_neg (by omega), if_pos (by omega)]
    exact ⟨rfl, by omega, by omega, by omega⟩
  · rw [if_neg (by omega), if_neg (by omega), if_pos (by omega)]
    exact ⟨rfl, by omega, by omega, by omega⟩
  · rw [if_neg (by omega), if_neg (by omega), if_neg (by omega), if_pos (by omega)]
    exact ⟨rfl, by omega, by omega, by omega⟩
  · rw [if_neg (by omega), if_neg (by omega), if_neg (by omega), if_neg (by omega),
      if_pos (by omega)]
    exact ⟨rfl, by omega, by omega, by omega⟩
  · rw [if_neg (by omega), if_neg (by omega), if_neg (by omega), if_neg (by omega),
      if_neg (by omega)]
    exact ⟨rfl, by omega, by omega, by omega⟩

theorem row_of_value {c : Nat} (large : 0x80 ≤ c) (bounded : c ≤ 0x7FFFFFFF) :
    ∃ entry ∈ rows, c / 64 ^ entry.2 < 2 ^ (6 - entry.2) ∧ ¬Overlong (entry.2 + 1) c := by
  unfold Overlong
  by_cases two : c ≤ 0x7FF
  · exact ⟨(0xC0, 1), by decide, by dsimp only; omega⟩
  · by_cases three : c ≤ 0xFFFF
    · exact ⟨(0xE0, 2), by decide, by dsimp only; omega⟩
    · by_cases four : c ≤ 0x1FFFFF
      · exact ⟨(0xF0, 3), by decide, by dsimp only; omega⟩
      · by_cases five : c ≤ 0x3FFFFFF
        · exact ⟨(0xF8, 4), by decide, by dsimp only; omega⟩
        · exact ⟨(0xFC, 5), by decide, by dsimp only; omega⟩

theorem utf8_of_lt {c : Nat} (small : c < 0x80) : utf8 c = [UInt8.ofNat c] := by
  rw [utf8, if_pos (Nat.le_of_lt_succ small), row, trail, Nat.pow_zero, Nat.div_one, Nat.zero_add]

theorem oneUtf8ToCppchar_iff {inbuf rest : List UInt8} {c : Nat} :
    oneUtf8ToCppchar inbuf = .ok (c, rest) ↔
      inbuf = utf8 c ++ rest ∧ Character c ∧ ¬Missed c := by
  constructor
  · intro decoded
    cases inbuf with
    | nil => cases decoded
    | cons first inbuf =>
      by_cases small : first.toNat < 0x80
      · rw [oneUtf8ToCppchar, if_pos small] at decoded
        cases decoded
        rw [utf8_of_lt small, UInt8.ofNat_toNat]
        unfold Character Missed IsSurrogate
        exact ⟨rfl, by omega, by omega⟩
      · obtain absent | ⟨⟨pattern, count⟩, isRow, top, topLt, taken, isFirst⟩ :=
          row_of_found first.toNat_lt (Nat.not_lt.mp small)
        · rw [oneUtf8ToCppchar, if_neg small, absent] at decoded
          cases decoded
        · obtain ⟨⟨large, byte⟩, found, masked, fits⟩ := found_of_row isRow topLt taken
          have isByte : first = UInt8.ofNat (pattern + top) := by
            rw [← isFirst, UInt8.ofNat_toNat]
          rw [isByte, oneUtf8ToCppchar_row large byte found masked fits] at decoded
          obtain ⟨isInbuf, rfl, notOverlong, notSurrogate⟩ := decoded
          obtain ⟨isUtf8, -, bounded, missed⟩ := utf8_of_row isRow topLt notOverlong
          rw [isByte, isInbuf, isUtf8]
          exact ⟨rfl, ⟨bounded, notSurrogate⟩, fun isMissed => taken (missed.mp isMissed)⟩
  · rintro ⟨rfl, ⟨bounded, notSurrogate⟩, notMissed⟩
    by_cases small : c < 0x80
    · have byte : (UInt8.ofNat c).toNat = c := toNat_byte (by omega)
      rw [utf8_of_lt small, List.singleton_append, oneUtf8ToCppchar, byte, if_pos small]
    · obtain ⟨⟨pattern, count⟩, isRow, topLt, notOverlong⟩ :=
        row_of_value (Nat.not_lt.mp small) bounded
      obtain ⟨isUtf8, -, -, missed⟩ := utf8_of_row isRow topLt notOverlong
      obtain ⟨⟨large, byte⟩, found, masked, fits⟩ :=
        found_of_row isRow topLt fun both => notMissed (missed.mpr both)
      rw [isUtf8, row, List.cons_append, oneUtf8ToCppchar_row large byte found masked fits]
      exact ⟨rfl, rfl, notOverlong, notSurrogate⟩

theorem length_utf8 (c : Nat) : 0 < (utf8 c).length ∧ (utf8 c).length ≤ 6 := by
  unfold utf8
  repeat' split
  all_goals
    rw [row, List.length_cons, length_trail]
    exact ⟨by decide, by decide⟩

theorem continues_iff {c nbytes : Nat} (some : 0 < nbytes) (few : nbytes < 6) :
    (c ≥ 0x3F ∨ c &&& limits.getD nbytes 0 ≠ 0) ↔ 2 ^ (6 - nbytes) ≤ c := by
  by_cases large : c ≥ 0x3F
  · have bound : 2 ^ (6 - nbytes) ≤ 2 ^ 5 := Nat.pow_le_pow_right (by decide) (by omega)
    simp only [large, true_or, true_iff]
    omega
  · have all : ∀ nbytes < 6, 0 < nbytes → ∀ c < 0x3F,
        (c &&& limits.getD nbytes 0 ≠ 0 ↔ 2 ^ (6 - nbytes) ≤ c) := by decide
    simp only [large, false_or]
    exact all nbytes few some c (Nat.not_le.mp large)

theorem stored_bits (c : Nat) : (c &&& 0x3F) ||| 0x80 = 0x80 + c % 64 := by
  have all : ∀ digit < 64, digit ||| 0x80 = 0x80 + digit := by decide
  have masked : c &&& 0x3F = c % 64 := Nat.and_two_pow_sub_one_eq_mod c 6
  rw [masked]
  exact all _ (Nat.mod_lt _ (by decide))

theorem stored_first {pattern count top : Nat} (isRow : (pattern, count) ∈ rows)
    (small : top < 2 ^ (6 - count)) : top ||| encodingMasks.getD count 0 = pattern + top := by
  have all : ∀ entry ∈ rows, ∀ top < 2 ^ (6 - entry.2),
      top ||| encodingMasks.getD entry.2 0 = entry.1 + top := by decide
  exact all (pattern, count) isRow top small

theorem encodeSequence_eq {c nbytes : Nat} {p : List UInt8} (some : 0 < nbytes)
    (few : nbytes < 6) :
    encodeSequence c nbytes p =
      if 2 ^ (6 - nbytes) ≤ c / 64 then
        encodeSequence (c / 64) (nbytes + 1) (UInt8.ofNat (0x80 + c % 64) :: p)
      else
        UInt8.ofNat (c / 64 ||| encodingMasks.getD nbytes 0) ::
          UInt8.ofNat (0x80 + c % 64) :: p := by
  have shifted : c >>> 6 = c / 64 := Nat.shiftRight_eq_div_pow c 6
  rw [encodeSequence, stored_bits, shifted]
  simp only [continues_iff some few]

theorem le_of_row {pattern count c : Nat} (isRow : (pattern, count) ∈ rows)
    (notOverlong : ¬Overlong (count + 1) c) (i : Nat) (some : 0 < i) (fewer : i < count) :
    2 ^ (6 - i) ≤ c / 64 ^ i := by
  unfold Overlong at notOverlong
  simp only [rows, List.mem_cons, Prod.mk.injEq, List.not_mem_nil, or_false] at isRow
  obtain ⟨rfl, rfl⟩ | ⟨rfl, rfl⟩ | ⟨rfl, rfl⟩ | ⟨rfl, rfl⟩ | ⟨rfl, rfl⟩ := isRow <;>
    interval_cases i <;> omega

theorem encodeSequence_row {pattern count c : Nat} (isRow : (pattern, count) ∈ rows)
    (small : c / 64 ^ count < 2 ^ (6 - count)) (notOverlong : ¬Overlong (count + 1) c) :
    encodeSequence c 1 [] = row pattern count c := by
  have count_range : 0 < count ∧ count < 6 := by
    have all : ∀ entry ∈ rows, 0 < entry.2 ∧ entry.2 < 6 := by decide
    exact all _ isRow
  have divided : ∀ i, c / 64 ^ i / 64 = c / 64 ^ (i + 1) := by
    intro i
    rw [Nat.div_div_eq_div_mul, Nat.pow_succ]
  have stage : ∀ i < count,
      encodeSequence c 1 [] = encodeSequence (c / 64 ^ i) (i + 1) (trail i c) := by
    intro i
    induction i with
    | zero =>
      intro _
      rw [Nat.pow_zero, Nat.div_one, trail]
    | succ i ih =>
      intro fewer
      rw [ih (by omega), encodeSequence_eq (by omega) (by omega), divided,
        if_pos (le_of_row isRow notOverlong (i + 1) (by omega) fewer), trail]
  obtain ⟨i, rfl⟩ : ∃ i, count = i + 1 := ⟨count - 1, by omega⟩
  rw [stage i (by omega), encodeSequence_eq (by omega) (by omega), divided,
    if_neg (Nat.not_le.mpr small), stored_first isRow small, row, trail]

theorem oneCppcharToUtf8_eq {c outbytesleft : Nat} (bounded : c ≤ 0x7FFFFFFF) :
    oneCppcharToUtf8 c outbytesleft =
      if outbytesleft < (utf8 c).length then .error .e2big else .ok (utf8 c) := by
  have bytes : (if c < 0x80 then [UInt8.ofNat c] else encodeSequence c 1 []) = utf8 c := by
    split
    · rename_i small
      exact (utf8_of_lt small).symm
    · rename_i large
      obtain ⟨⟨pattern, count⟩, isRow, topLt, notOverlong⟩ :=
        row_of_value (Nat.not_lt.mp large) bounded
      rw [encodeSequence_row isRow topLt notOverlong, (utf8_of_row isRow topLt notOverlong).1]
  unfold oneCppcharToUtf8
  rw [bytes]

theorem trail_append_inj {count x y : Nat} {xRest yRest : List UInt8} (small : count ≤ 5)
    (same : trail count x ++ xRest = trail count y ++ yRest) :
    x % 64 ^ count = y % 64 ^ count ∧ xRest = yRest := by
  have positive : 0 < 64 ^ count := Nat.pow_pos (by decide)
  have fits : (0 + 1) * 64 ^ count ≤ 2 ^ 32 := by
    rw [Nat.one_mul]
    exact (Nat.pow_le_pow_right (by decide) small).trans (by decide)
  have reads : ∀ z rest,
      continueSequence count 0 (trail count z ++ rest) = .ok (z % 64 ^ count, rest) := by
    intro z rest
    refine (continueSequence_iff fits).mpr ⟨z % 64 ^ count, Nat.mod_lt _ positive, ?_, by omega⟩
    have parts := Nat.div_add_mod z (64 ^ count)
    rw [Nat.mul_comm] at parts
    nth_rewrite 1 [← parts]
    rw [trail_add_mul]
  have both := reads x xRest
  rw [same, reads y yRest, Except.ok.injEq, Prod.mk.injEq] at both
  exact ⟨both.1.symm, both.2.symm⟩

theorem rows_disjoint {pattern count top pattern' count' top' : Nat}
    (isRow : (pattern, count) ∈ rows) (isRow' : (pattern', count') ∈ rows)
    (small : top < 2 ^ (6 - count)) (small' : top' < 2 ^ (6 - count'))
    (same : pattern + top = pattern' + top') : count = count' ∧ top = top' := by
  simp only [rows, List.mem_cons, Prod.mk.injEq, List.not_mem_nil, or_false] at isRow isRow'
  obtain ⟨rfl, rfl⟩ | ⟨rfl, rfl⟩ | ⟨rfl, rfl⟩ | ⟨rfl, rfl⟩ | ⟨rfl, rfl⟩ := isRow <;>
    obtain ⟨rfl, rfl⟩ | ⟨rfl, rfl⟩ | ⟨rfl, rfl⟩ | ⟨rfl, rfl⟩ | ⟨rfl, rfl⟩ := isRow' <;> omega

theorem utf8_append_inj {c d : Nat} {cRest dRest : List UInt8} (cBounded : c ≤ 0x7FFFFFFF)
    (dBounded : d ≤ 0x7FFFFFFF) (same : utf8 c ++ cRest = utf8 d ++ dRest) :
    c = d ∧ cRest = dRest := by
  have first_lt : ∀ {entry : Nat × Nat} {top}, entry ∈ rows → top < 2 ^ (6 - entry.2) →
      (0x80 ≤ entry.1 + top ∧ entry.1 + top < 256) ∧ entry.2 ≤ 5 := by
    have all : ∀ entry ∈ rows, ∀ top < 2 ^ (6 - entry.2),
        (0x80 ≤ entry.1 + top ∧ entry.1 + top < 256) ∧ entry.2 ≤ 5 := by decide
    exact @fun entry top isRow topLt => all entry isRow top topLt
  have same_byte : ∀ {x y : Nat}, x < 256 → y < 256 → UInt8.ofNat x = UInt8.ofNat y → x = y := by
    intro x y xLt yLt same
    rw [← toNat_byte xLt, same, toNat_byte yLt]
  by_cases cSmall : c < 0x80
  · rw [utf8_of_lt cSmall, List.singleton_append] at same
    by_cases dSmall : d < 0x80
    · rw [utf8_of_lt dSmall, List.singleton_append, List.cons.injEq] at same
      exact ⟨same_byte (by omega) (by omega) same.1, same.2⟩
    · obtain ⟨⟨pattern, count⟩, isRow, topLt, notOverlong⟩ :=
        row_of_value (Nat.not_lt.mp dSmall) dBounded
      have range := first_lt isRow topLt
      rw [(utf8_of_row isRow topLt notOverlong).1, row, List.cons_append, List.cons.injEq] at same
      have := same_byte (by omega) range.1.2 same.1
      omega
  · obtain ⟨⟨pattern, count⟩, isRow, topLt, notOverlong⟩ :=
      row_of_value (Nat.not_lt.mp cSmall) cBounded
    have range := first_lt isRow topLt
    rw [(utf8_of_row isRow topLt notOverlong).1, row, List.cons_append] at same
    by_cases dSmall : d < 0x80
    · rw [utf8_of_lt dSmall, List.singleton_append, List.cons.injEq] at same
      have := same_byte range.1.2 (by omega) same.1
      omega
    · obtain ⟨⟨pattern', count'⟩, isRow', topLt', notOverlong'⟩ :=
        row_of_value (Nat.not_lt.mp dSmall) dBounded
      have range' := first_lt isRow' topLt'
      rw [(utf8_of_row isRow' topLt' notOverlong').1, row, List.cons_append,
        List.cons.injEq] at same
      obtain ⟨sameCount, sameTop⟩ := rows_disjoint isRow isRow' topLt topLt'
        (same_byte range.1.2 range'.1.2 same.1)
      dsimp only at sameCount sameTop
      subst sameCount
      obtain ⟨sameLow, sameRest⟩ := trail_append_inj range.2 same.2
      refine ⟨?_, sameRest⟩
      rw [← Nat.div_add_mod c (64 ^ count), sameTop, sameLow, Nat.div_add_mod]

end GccCil.Libcpp.Charset
