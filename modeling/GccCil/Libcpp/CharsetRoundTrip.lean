import GccCil.Libcpp.Utf8
import GccCil.Lib.PrefixCode

/-!
# Strings in UTF-8, UTF-16 and UTF-32

The conversions between UTF-8 and the wider encodings succeed on the encodings
of strings of characters only, and do what they should but for a few characters.
-/

namespace GccCil.Libcpp.Charset

def twoBytes (bigend : Bool) (n : Nat) : List UInt8 :=
  if bigend then [UInt8.ofNat (n / 256), UInt8.ofNat n] else [UInt8.ofNat n, UInt8.ofNat (n / 256)]

def utf32 (bigend : Bool) (c : Nat) : List UInt8 :=
  if bigend then twoBytes bigend (c / 65536) ++ twoBytes bigend c
  else twoBytes bigend c ++ twoBytes bigend (c / 65536)

def utf16 (bigend : Bool) (c : Nat) : List UInt8 :=
  if c < 0x10000 then twoBytes bigend c
  else twoBytes bigend ((c - 0x10000) / 0x400 + 0xD800) ++
    twoBytes bigend ((c - 0x10000) % 0x400 + 0xDC00)

theorem ofNat_mod (n : Nat) : UInt8.ofNat (n % 256) = UInt8.ofNat n := by
  rw [← UInt8.toNat_inj, UInt8.toNat_ofNat', UInt8.toNat_ofNat', Nat.mod_mod]

theorem and_byte (n shift : Nat) : (n &&& 0xFF <<< shift) >>> shift = n / 2 ^ shift % 256 := by
  rw [Nat.shiftRight_and_distrib, Nat.shiftLeft_shiftRight, Nat.shiftRight_eq_div_pow]
  exact Nat.and_two_pow_sub_one_eq_mod _ 8

theorem storeUnit_eq (bigend : Bool) (s : Nat) : storeUnit bigend s = twoBytes bigend s := by
  have low : UInt8.ofNat (s &&& 0x00FF) = UInt8.ofNat s := by
    rw [← ofNat_mod s]
    exact congrArg UInt8.ofNat (Nat.and_two_pow_sub_one_eq_mod s 8)
  have high : UInt8.ofNat ((s &&& 0xFF00) >>> 8) = UInt8.ofNat (s / 256) := by
    rw [← ofNat_mod (s / 256)]
    exact congrArg UInt8.ofNat (and_byte s 8)
  rw [storeUnit, twoBytes, low, high]

theorem twoBytes_loadUnit (bigend : Bool) (b0 b1 : UInt8) :
    twoBytes bigend (loadUnit bigend b0 b1) = [b0, b1] := by
  have both : ∀ high low : UInt8, UInt8.ofNat ((high.toNat * 2 ^ 8 + low.toNat) / 256) = high ∧
      UInt8.ofNat (high.toNat * 2 ^ 8 + low.toNat) = low := by
    intro high low
    have highLt := high.toNat_lt
    have lowLt := low.toNat_lt
    constructor
    · rw [← UInt8.toNat_inj, UInt8.toNat_ofNat']
      omega
    · rw [← UInt8.toNat_inj, UInt8.toNat_ofNat']
      omega
  unfold twoBytes loadUnit
  cases bigend with
  | false => simp only [Bool.false_eq_true, if_false, Nat.shiftLeft_eq, both]
  | true => simp only [if_true, Nat.shiftLeft_eq, both]

theorem loadUnit_lt (bigend : Bool) (b0 b1 : UInt8) : loadUnit bigend b0 b1 < 0x10000 := by
  have := b0.toNat_lt
  have := b1.toNat_lt
  unfold loadUnit
  split
  · rw [Nat.shiftLeft_eq]
    omega
  · rw [Nat.shiftLeft_eq]
    omega

theorem loadUnit_of_twoBytes {bigend : Bool} {b0 b1 : UInt8} {n : Nat} (small : n < 0x10000)
    (stored : twoBytes bigend n = [b0, b1]) : loadUnit bigend b0 b1 = n := by
  unfold twoBytes at stored
  unfold loadUnit
  cases bigend with
  | false =>
    simp only [Bool.false_eq_true, if_false, List.cons.injEq, and_true] at stored ⊢
    rw [← stored.1, ← stored.2, UInt8.toNat_ofNat', UInt8.toNat_ofNat', Nat.shiftLeft_eq]
    omega
  | true =>
    simp only [if_true, List.cons.injEq, and_true] at stored ⊢
    rw [← stored.1, ← stored.2, UInt8.toNat_ofNat', UInt8.toNat_ofNat', Nat.shiftLeft_eq]
    omega

theorem length_twoBytes (bigend : Bool) (n : Nat) : (twoBytes bigend n).length = 2 := by
  cases bigend <;> rfl

theorem length_utf32 (bigend : Bool) (c : Nat) : (utf32 bigend c).length = 4 := by
  cases bigend <;> rfl

theorem twoBytes_cons (bigend : Bool) (n : Nat) : ∃ b0 b1, twoBytes bigend n = [b0, b1] := by
  cases bigend with
  | false => exact ⟨_, _, rfl⟩
  | true => exact ⟨_, _, rfl⟩

theorem twoBytes_mod (bigend : Bool) (n : Nat) : twoBytes bigend (n % 65536) = twoBytes bigend n := by
  have low : UInt8.ofNat (n % 65536) = UInt8.ofNat n := by
    rw [← ofNat_mod, Nat.mod_mod_of_dvd n (by decide), ofNat_mod]
  have high : UInt8.ofNat (n % 65536 / 256) = UInt8.ofNat (n / 256) := by
    rw [← ofNat_mod, ← ofNat_mod (n / 256)]
    congr 1
    omega
  rw [twoBytes, twoBytes, low, high]

/-- What `one_utf8_to_utf16` writes: one character too many is taken for one
that needs a surrogate pair. -/
def written16 (bigend : Bool) (c : Nat) : List UInt8 :=
  if c = 0xFFFF then twoBytes bigend 0xD7FF ++ twoBytes bigend 0xDFFF else utf16 bigend c

theorem oneUtf8ToUtf32_iff {bigend : Bool} {inbuf written rest : List UInt8} {left : Nat} :
    oneUtf8ToUtf32 bigend inbuf left = .ok (written, rest) ↔
      ∃ c, (Character c ∧ ¬Missed c) ∧ inbuf = utf8 c ++ rest ∧ written = utf32 bigend c ∧
        (utf32 bigend c).length ≤ left := by
  have stored : ∀ c : Nat,
      (if bigend then [UInt8.ofNat ((c &&& 0xFF000000) >>> 24),
          UInt8.ofNat ((c &&& 0x00FF0000) >>> 16), UInt8.ofNat ((c &&& 0x0000FF00) >>> 8),
          UInt8.ofNat (c &&& 0x000000FF)]
        else [UInt8.ofNat (c &&& 0x000000FF), UInt8.ofNat ((c &&& 0x0000FF00) >>> 8),
          UInt8.ofNat ((c &&& 0x00FF0000) >>> 16), UInt8.ofNat ((c &&& 0xFF000000) >>> 24)]) =
        utf32 bigend c := by
    intro c
    have byte0 : c &&& 0x000000FF = c % 256 := Nat.and_two_pow_sub_one_eq_mod c 8
    have byte1 : (c &&& 0x0000FF00) >>> 8 = c / 256 % 256 := and_byte c 8
    have byte2 : (c &&& 0x00FF0000) >>> 16 = c / 65536 % 256 := and_byte c 16
    have byte3 : (c &&& 0xFF000000) >>> 24 = c / 65536 / 256 % 256 := by
      rw [Nat.div_div_eq_div_mul]
      exact and_byte c 24
    rw [byte0, byte1, byte2, byte3, ofNat_mod, ofNat_mod, ofNat_mod, ofNat_mod]
    cases bigend <;> rfl
  unfold oneUtf8ToUtf32
  simp only [stored, length_utf32]
  by_cases full : left < 4
  · rw [if_pos full]
    refine iff_of_false nofun ?_
    rintro ⟨c, -, -, -, room⟩
    omega
  · rw [if_neg full]
    constructor
    · intro converted
      cases decoded : oneUtf8ToCppchar inbuf with
      | error errno =>
        rw [decoded] at converted
        cases converted
      | ok value =>
        obtain ⟨c, other⟩ := value
        rw [decoded] at converted
        cases converted
        obtain ⟨isInbuf, allowed⟩ := oneUtf8ToCppchar_iff.mp decoded
        exact ⟨c, allowed, isInbuf, rfl, Nat.not_lt.mp full⟩
    · rintro ⟨c, allowed, isInbuf, rfl, -⟩
      rw [oneUtf8ToCppchar_iff.mpr ⟨isInbuf, allowed⟩]
      rfl

def loadWord (bigend : Bool) (b0 b1 b2 b3 : UInt8) : Nat :=
  if bigend then loadUnit bigend b0 b1 * 65536 + loadUnit bigend b2 b3
  else loadUnit bigend b2 b3 * 65536 + loadUnit bigend b0 b1

theorem utf32_loadWord (bigend : Bool) (b0 b1 b2 b3 : UInt8) :
    utf32 bigend (loadWord bigend b0 b1 b2 b3) = [b0, b1, b2, b3] := by
  have first := loadUnit_lt bigend b0 b1
  have second := loadUnit_lt bigend b2 b3
  have parts : ∀ high low : Nat, low < 0x10000 →
      (high * 65536 + low) / 65536 = high ∧ (high * 65536 + low) % 65536 = low := by
    intro high low lowLt
    constructor <;> omega
  unfold utf32 loadWord
  cases bigend with
  | false =>
    simp only [Bool.false_eq_true, if_false]
    rw [← twoBytes_mod, (parts _ _ first).1, (parts _ _ first).2, twoBytes_loadUnit,
      twoBytes_loadUnit]
    rfl
  | true =>
    simp only [if_true]
    rw [← twoBytes_mod _ (_ * 65536 + _), (parts _ _ second).1, (parts _ _ second).2,
      twoBytes_loadUnit, twoBytes_loadUnit]
    rfl

theorem loadWord_of_utf32 {bigend : Bool} {b0 b1 b2 b3 : UInt8} {c : Nat} (small : c < 2 ^ 32)
    (stored : utf32 bigend c = [b0, b1, b2, b3]) : loadWord bigend b0 b1 b2 b3 = c := by
  have parts : ∀ first second : Nat, twoBytes bigend first ++ twoBytes bigend second =
      [b0, b1, b2, b3] → twoBytes bigend first = [b0, b1] ∧ twoBytes bigend second = [b2, b3] := by
    intro first second both
    obtain ⟨x0, x1, isFirst⟩ := twoBytes_cons bigend first
    obtain ⟨x2, x3, isSecond⟩ := twoBytes_cons bigend second
    rw [isFirst, isSecond] at both ⊢
    simp only [List.cons_append, List.nil_append, List.cons.injEq] at both
    obtain ⟨rfl, rfl, rfl, rfl, -⟩ := both
    exact ⟨rfl, rfl⟩
  unfold utf32 at stored
  unfold loadWord
  cases bigend with
  | false =>
    simp only [Bool.false_eq_true, if_false] at stored ⊢
    obtain ⟨isLow, isHigh⟩ := parts _ _ stored
    rw [← twoBytes_mod] at isLow
    rw [loadUnit_of_twoBytes (Nat.mod_lt _ (by decide)) isLow,
      loadUnit_of_twoBytes (by omega) isHigh]
    omega
  | true =>
    simp only [if_true] at stored ⊢
    obtain ⟨isHigh, isLow⟩ := parts _ _ stored
    rw [← twoBytes_mod] at isLow
    rw [loadUnit_of_twoBytes (Nat.mod_lt _ (by decide)) isLow,
      loadUnit_of_twoBytes (by omega) isHigh]
    omega

theorem oneUtf32ToUtf8_cons (bigend : Bool) (b0 b1 b2 b3 : UInt8) (rest : List UInt8) (left : Nat) :
    oneUtf32ToUtf8 bigend (b0 :: b1 :: b2 :: b3 :: rest) left =
      if loadWord bigend b0 b1 b2 b3 ≥ 0x7FFFFFFF ∨ IsSurrogate (loadWord bigend b0 b1 b2 b3) then
        .error .eilseq
      else (oneCppcharToUtf8 (loadWord bigend b0 b1 b2 b3) left).bind fun bytes =>
        .ok (bytes, rest) := by
  have isWord : (if bigend then
        b0.toNat <<< 24 + b1.toNat <<< 16 + b2.toNat <<< 8 + b3.toNat
      else b3.toNat <<< 24 + b2.toNat <<< 16 + b1.toNat <<< 8 + b0.toNat) =
      loadWord bigend b0 b1 b2 b3 := by
    unfold loadWord loadUnit
    cases bigend with
    | false =>
      simp only [Bool.false_eq_true, if_false, Nat.shiftLeft_eq]
      omega
    | true =>
      simp only [if_true, Nat.shiftLeft_eq]
      omega
  rw [oneUtf32ToUtf8]
  dsimp only
  rw [isWord]

theorem encoded_eq {c left : Nat} (rest : List UInt8) (bounded : c ≤ 0x7FFFFFFF) :
    ((oneCppcharToUtf8 c left).bind fun bytes => (.ok (bytes, rest) : Converted)) =
      if left < (utf8 c).length then .error .e2big else .ok (utf8 c, rest) := by
  rw [oneCppcharToUtf8_eq bounded]
  split <;> rfl

theorem oneUtf32ToUtf8_of_utf32 {bigend : Bool} {c left : Nat} {rest : List UInt8}
    (allowed : Character c ∧ c ≠ 0x7FFFFFFF) :
    oneUtf32ToUtf8 bigend (utf32 bigend c ++ rest) left =
      if left < (utf8 c).length then .error .e2big else .ok (utf8 c, rest) := by
  obtain ⟨⟨bounded, notSurrogate⟩, notLast⟩ := allowed
  obtain ⟨b0, b1, b2, b3, stored⟩ : ∃ b0 b1 b2 b3, utf32 bigend c = [b0, b1, b2, b3] := by
    cases bigend with
    | false => exact ⟨_, _, _, _, rfl⟩
    | true => exact ⟨_, _, _, _, rfl⟩
  rw [stored, List.cons_append, List.cons_append, List.cons_append, List.cons_append,
    List.nil_append, oneUtf32ToUtf8_cons, loadWord_of_utf32 (by omega) stored, if_neg,
    encoded_eq rest bounded]
  rintro (large | surrogate)
  · omega
  · exact notSurrogate surrogate

theorem oneUtf32ToUtf8_iff {bigend : Bool} {inbuf written rest : List UInt8} {left : Nat} :
    oneUtf32ToUtf8 bigend inbuf left = .ok (written, rest) ↔
      ∃ c, (Character c ∧ c ≠ 0x7FFFFFFF) ∧ inbuf = utf32 bigend c ++ rest ∧ written = utf8 c ∧
        (utf8 c).length ≤ left := by
  constructor
  · intro converted
    unfold oneUtf32ToUtf8 at converted
    split at converted
    · rename_i b0 b1 b2 b3 other
      change oneUtf32ToUtf8 bigend (b0 :: b1 :: b2 :: b3 :: other) left = _ at converted
      rw [oneUtf32ToUtf8_cons] at converted
      split at converted
      · cases converted
      · rename_i allowed
        rw [not_or] at allowed
        rw [encoded_eq other (by omega)] at converted
        split at converted
        · cases converted
        · rename_i room
          cases converted
          refine ⟨loadWord bigend b0 b1 b2 b3, ⟨⟨by omega, allowed.2⟩, by omega⟩, ?_, rfl,
            Nat.not_lt.mp room⟩
          rw [utf32_loadWord]
          rfl
    · cases converted
  · rintro ⟨c, allowed, rfl, rfl, room⟩
    rw [oneUtf32ToUtf8_of_utf32 allowed, if_neg (Nat.not_lt.mpr room)]

theorem length_written16 (bigend : Bool) (c : Nat) :
    (written16 bigend c).length = if c < 0xFFFF then 2 else 4 := by
  unfold written16 utf16
  split
  · rw [List.length_append, length_twoBytes, length_twoBytes, if_neg (by omega)]
  · split
    · rw [length_twoBytes, if_pos (by omega)]
    · rw [List.length_append, length_twoBytes, length_twoBytes, if_neg (by omega)]

theorem oneUtf8ToUtf16_of_decoded {bigend : Bool} {inbuf rest : List UInt8} {c left : Nat}
    (decoded : oneUtf8ToCppchar inbuf = .ok (c, rest)) :
    oneUtf8ToUtf16 bigend inbuf left =
      if c > 0x10FFFF then .error .eilseq
      else if left < (written16 bigend c).length then .error .e2big
      else .ok (written16 bigend c, rest) := by
  rw [oneUtf8ToUtf16, decoded, length_written16]
  simp only [Except.bind, storeUnit_eq]
  by_cases large : c > 0x10FFFF
  · rw [if_pos large, if_pos large]
  · rw [if_neg large, if_neg large]
    by_cases one : c < 0xFFFF
    · simp only [if_pos one]
      have isUnit : written16 bigend c = twoBytes bigend c := by
        rw [written16, if_neg (by omega), utf16, if_pos (by omega)]
      rw [isUnit]
    · simp only [if_neg one]
      have isPair : twoBytes bigend ((c + (2 ^ 32 - 0x10000)) % 2 ^ 32 / 0x400 + 0xD800) ++
          twoBytes bigend ((c + (2 ^ 32 - 0x10000)) % 2 ^ 32 % 0x400 + 0xDC00) =
            written16 bigend c := by
        by_cases last : c = 0xFFFF
        · subst last
          have high : (0xFFFF + (2 ^ 32 - 0x10000)) % 2 ^ 32 / 0x400 + 0xD800 =
              65536 * 64 + 0xD7FF := by decide
          have low : (0xFFFF + (2 ^ 32 - 0x10000)) % 2 ^ 32 % 0x400 + 0xDC00 = 0xDFFF := by decide
          rw [high, low, ← twoBytes_mod, Nat.mul_add_mod, twoBytes_mod, written16, if_pos rfl]
        · have offset : (c + (2 ^ 32 - 0x10000)) % 2 ^ 32 = c - 0x10000 := by omega
          rw [offset, written16, if_neg last, utf16, if_neg (by omega)]
      rw [isPair]

theorem oneUtf8ToUtf16_iff {bigend : Bool} {inbuf written rest : List UInt8} {left : Nat} :
    oneUtf8ToUtf16 bigend inbuf left = .ok (written, rest) ↔
      ∃ c, (Character c ∧ c ≤ 0x10FFFF) ∧ inbuf = utf8 c ++ rest ∧
        written = written16 bigend c ∧ (written16 bigend c).length ≤ left := by
  have notMissed : ∀ {c}, c ≤ 0x10FFFF → ¬Missed c := by
    intro c bounded
    unfold Missed
    omega
  constructor
  · intro converted
    cases decoded : oneUtf8ToCppchar inbuf with
    | error errno =>
      rw [oneUtf8ToUtf16, decoded] at converted
      cases converted
    | ok value =>
      obtain ⟨c, other⟩ := value
      obtain ⟨isInbuf, isCharacter, -⟩ := oneUtf8ToCppchar_iff.mp decoded
      rw [oneUtf8ToUtf16_of_decoded decoded] at converted
      split at converted
      · cases converted
      · rename_i bounded
        split at converted
        · cases converted
        · rename_i room
          cases converted
          exact ⟨c, ⟨isCharacter, Nat.not_lt.mp bounded⟩, isInbuf, rfl, Nat.not_lt.mp room⟩
  · rintro ⟨c, ⟨isCharacter, bounded⟩, rfl, rfl, room⟩
    have decoded := oneUtf8ToCppchar_iff.mpr
      (⟨rfl, isCharacter, notMissed bounded⟩ : utf8 c ++ rest = utf8 c ++ rest ∧ _)
    rw [oneUtf8ToUtf16_of_decoded decoded, if_neg (Nat.not_lt.mpr bounded),
      if_neg (Nat.not_lt.mpr room)]

theorem oneUtf16ToUtf8_of_utf16 {bigend : Bool} {c left : Nat} {rest : List UInt8}
    (allowed : Character c ∧ c ≤ 0x10FFFF) :
    oneUtf16ToUtf8 bigend (utf16 bigend c ++ rest) left =
      if left < (utf8 c).length then .error .e2big else .ok (utf8 c, rest) := by
  obtain ⟨⟨bounded, notSurrogate⟩, plane⟩ := allowed
  unfold IsSurrogate at notSurrogate
  unfold utf16
  split
  · rename_i small
    obtain ⟨b0, b1, stored⟩ := twoBytes_cons bigend c
    rw [stored, List.cons_append, List.cons_append, List.nil_append]
    unfold oneUtf16ToUtf8
    dsimp only
    rw [loadUnit_of_twoBytes small stored, if_neg (by omega), if_neg (by omega),
      encoded_eq rest bounded]
  · rename_i large
    obtain ⟨b0, b1, storedHigh⟩ := twoBytes_cons bigend ((c - 0x10000) / 0x400 + 0xD800)
    obtain ⟨b2, b3, storedLow⟩ := twoBytes_cons bigend ((c - 0x10000) % 0x400 + 0xDC00)
    have pair : ((c - 0x10000) / 0x400 + 0xD800 - 0xD800) * 0x400 +
        ((c - 0x10000) % 0x400 + 0xDC00 - 0xDC00) + 0x10000 = c := by omega
    rw [storedHigh, storedLow, List.append_assoc]
    simp only [List.cons_append, List.nil_append, oneUtf16ToUtf8]
    rw [loadUnit_of_twoBytes (by omega) storedHigh, loadUnit_of_twoBytes (by omega) storedLow,
      if_neg (by omega), if_pos (by omega), if_neg (by omega), pair, encoded_eq rest bounded]

theorem oneUtf16ToUtf8_iff {bigend : Bool} {inbuf written rest : List UInt8} {left : Nat} :
    oneUtf16ToUtf8 bigend inbuf left = .ok (written, rest) ↔
      ∃ c, (Character c ∧ c ≤ 0x10FFFF) ∧ inbuf = utf16 bigend c ++ rest ∧ written = utf8 c ∧
        (utf8 c).length ≤ left := by
  constructor
  · intro converted
    unfold oneUtf16ToUtf8 at converted
    split at converted
    · rename_i b0 b1 other
      have unitLt := loadUnit_lt bigend b0 b1
      have isUnit := twoBytes_loadUnit bigend b0 b1
      generalize loadUnit bigend b0 b1 = s at converted unitLt isUnit
      dsimp only at converted
      split at converted
      · cases converted
      · rename_i notLow
        split at converted
        · rename_i high
          split at converted
          · rename_i b2 b3 last
            have isLow := twoBytes_loadUnit bigend b2 b3
            generalize loadUnit bigend b2 b3 = lo at converted isLow
            split at converted
            · cases converted
            · rename_i low
              generalize isValue : (s - 0xD800) * 0x400 + (lo - 0xDC00) + 0x10000 = c at converted
              rw [encoded_eq last (by omega)] at converted
              split at converted
              · cases converted
              · rename_i room
                cases converted
                have isHigh : (c - 0x10000) / 0x400 + 0xD800 = s := by omega
                have isRest : (c - 0x10000) % 0x400 + 0xDC00 = lo := by omega
                refine ⟨c, ⟨⟨by omega, by unfold IsSurrogate; omega⟩, by omega⟩, ?_, rfl,
                  Nat.not_lt.mp room⟩
                rw [utf16, if_neg (by omega), isHigh, isRest, isUnit, isLow]
                rfl
          · cases converted
        · rename_i notHigh
          rw [encoded_eq other (by omega)] at converted
          split at converted
          · cases converted
          · rename_i room
            cases converted
            refine ⟨s, ⟨⟨by omega, by unfold IsSurrogate; omega⟩, by omega⟩, ?_, rfl,
              Nat.not_lt.mp room⟩
            rw [utf16, if_pos unitLt, isUnit]
            rfl
    · cases converted
  · rintro ⟨c, allowed, rfl, rfl, room⟩
    rw [oneUtf16ToUtf8_of_utf16 allowed, if_neg (Nat.not_lt.mpr room)]

/-- A conversion takes the encodings of the characters that it allows, and asks
for more room where the other encoding does not fit. -/
structure Transcodes (convert : List UInt8 → Nat → Converted) (Allowed : Nat → Prop)
    (source target : Nat → List UInt8) : Prop where
  ok_iff : ∀ {inbuf written rest left}, convert inbuf left = .ok (written, rest) ↔
    ∃ c, Allowed c ∧ inbuf = source c ++ rest ∧ written = target c ∧ (target c).length ≤ left
  nonempty : ∀ c, source c ≠ []
  retries : ∀ {c rest left}, Allowed c → left < (target c).length →
    convert (source c ++ rest) left = .error .e2big

theorem utf8_ne_nil (c : Nat) : utf8 c ≠ [] :=
  List.ne_nil_of_length_pos (length_utf8 c).1

theorem length_utf16 (bigend : Bool) (c : Nat) :
    0 < (utf16 bigend c).length ∧ (utf16 bigend c).length ≤ 4 := by
  unfold utf16
  split
  · rw [length_twoBytes]
    decide
  · rw [List.length_append, length_twoBytes, length_twoBytes]
    decide

theorem utf8ToUtf32_transcodes (bigend : Bool) :
    Transcodes (oneUtf8ToUtf32 bigend) (fun c => Character c ∧ ¬Missed c) utf8
      (utf32 bigend) where
  ok_iff := oneUtf8ToUtf32_iff
  nonempty := utf8_ne_nil
  retries := fun _ room => by
    rw [length_utf32] at room
    rw [oneUtf8ToUtf32, if_pos room]

theorem utf32ToUtf8_transcodes (bigend : Bool) :
    Transcodes (oneUtf32ToUtf8 bigend) (fun c => Character c ∧ c ≠ 0x7FFFFFFF) (utf32 bigend)
      utf8 where
  ok_iff := oneUtf32ToUtf8_iff
  nonempty := fun c => List.ne_nil_of_length_pos (by rw [length_utf32]; decide)
  retries := fun allowed room => by rw [oneUtf32ToUtf8_of_utf32 allowed, if_pos room]

theorem utf8ToUtf16_transcodes (bigend : Bool) :
    Transcodes (oneUtf8ToUtf16 bigend) (fun c => Character c ∧ c ≤ 0x10FFFF) utf8
      (written16 bigend) where
  ok_iff := oneUtf8ToUtf16_iff
  nonempty := utf8_ne_nil
  retries := by
    intro c rest left ⟨isCharacter, bounded⟩ room
    have notMissed : ¬Missed c := by
      unfold Missed
      omega
    rw [oneUtf8ToUtf16_of_decoded (oneUtf8ToCppchar_iff.mpr ⟨rfl, isCharacter, notMissed⟩),
      if_neg (Nat.not_lt.mpr bounded), if_pos room]

theorem utf16ToUtf8_transcodes (bigend : Bool) :
    Transcodes (oneUtf16ToUtf8 bigend) (fun c => Character c ∧ c ≤ 0x10FFFF) (utf16 bigend)
      utf8 where
  ok_iff := oneUtf16ToUtf8_iff
  nonempty := fun c => List.ne_nil_of_length_pos (length_utf16 bigend c).1
  retries := fun allowed room => by rw [oneUtf16ToUtf8_of_utf16 allowed, if_pos room]

theorem Transcodes.reads {convert : List UInt8 → Nat → Converted} {Allowed : Nat → Prop}
    {source target : Nat → List UInt8} (transcodes : Transcodes convert Allowed source target)
    {inbuf written rest : List UInt8} {left : Nat} (converted : convert inbuf left = .ok (written, rest)) :
    rest.length < inbuf.length ∧ written.length ≤ left := by
  obtain ⟨c, -, rfl, rfl, room⟩ := transcodes.ok_iff.mp converted
  have some := List.length_pos_of_ne_nil (transcodes.nonempty c)
  rw [List.length_append]
  exact ⟨by omega, room⟩

theorem continueSequence_ne_e2big (count c : Nat) (inbuf : List UInt8) :
    continueSequence count c inbuf ≠ .error .e2big := by
  induction count generalizing c inbuf with
  | zero =>
    intro isE2big
    cases isE2big
  | succ count ih =>
    cases inbuf with
    | nil =>
      intro isE2big
      cases isE2big
    | cons n inbuf =>
      rw [continueSequence]
      split
      · intro isE2big
        cases isE2big
      · exact ih _ inbuf

theorem oneUtf8ToCppchar_ne_e2big (inbuf : List UInt8) :
    oneUtf8ToCppchar inbuf ≠ .error .e2big := by
  cases inbuf with
  | nil =>
    intro isE2big
    cases isE2big
  | cons first inbuf =>
    rw [oneUtf8ToCppchar]
    split
    · intro isE2big
      cases isE2big
    · cases sequenceLength first.toNat with
      | none =>
        intro isE2big
        cases isE2big
      | some nbytes =>
        dsimp only
        split
        · intro isE2big
          cases isE2big
        · cases continued : continueSequence (nbytes - 1)
            (first.toNat &&& decodingMasks.getD (nbytes - 1) 0) inbuf with
          | error errno =>
            intro isE2big
            cases isE2big
            exact continueSequence_ne_e2big _ _ _ continued
          | ok decoded =>
            simp only [Except.bind]
            split
            · intro isE2big
              cases isE2big
            · split
              · intro isE2big
                cases isE2big
              · intro isE2big
                cases isE2big

theorem oneUtf8ToUtf32_e2big {bigend : Bool} {inbuf : List UInt8} {left : Nat}
    (isE2big : oneUtf8ToUtf32 bigend inbuf left = .error .e2big) : left < outbufBlockSize := by
  unfold oneUtf8ToUtf32 at isE2big
  split at isE2big
  · rename_i full
    exact full.trans (by decide)
  · cases decoded : oneUtf8ToCppchar inbuf with
    | error errno =>
      rw [decoded] at isE2big
      cases isE2big
      exact absurd decoded (oneUtf8ToCppchar_ne_e2big inbuf)
    | ok value =>
      rw [decoded] at isE2big
      cases isE2big

theorem encoded_e2big {c left : Nat} {rest : List UInt8} (bounded : c ≤ 0x7FFFFFFF)
    (isE2big : ((oneCppcharToUtf8 c left).bind fun bytes => (.ok (bytes, rest) : Converted)) =
      .error .e2big) : left < outbufBlockSize := by
  rw [encoded_eq rest bounded] at isE2big
  split at isE2big
  · rename_i full
    exact (full.trans_le (length_utf8 c).2).trans (by decide)
  · cases isE2big

theorem oneUtf32ToUtf8_e2big {bigend : Bool} {inbuf : List UInt8} {left : Nat}
    (isE2big : oneUtf32ToUtf8 bigend inbuf left = .error .e2big) : left < outbufBlockSize := by
  unfold oneUtf32ToUtf8 at isE2big
  split at isE2big
  · rename_i b0 b1 b2 b3 rest
    change oneUtf32ToUtf8 bigend (b0 :: b1 :: b2 :: b3 :: rest) left = _ at isE2big
    rw [oneUtf32ToUtf8_cons] at isE2big
    split at isE2big
    · cases isE2big
    · rename_i allowed
      exact encoded_e2big (by omega) isE2big
  · cases isE2big

theorem oneUtf8ToUtf16_e2big {bigend : Bool} {inbuf : List UInt8} {left : Nat}
    (isE2big : oneUtf8ToUtf16 bigend inbuf left = .error .e2big) : left < outbufBlockSize := by
  cases decoded : oneUtf8ToCppchar inbuf with
  | error errno =>
    rw [oneUtf8ToUtf16, decoded] at isE2big
    cases isE2big
    exact absurd decoded (oneUtf8ToCppchar_ne_e2big inbuf)
  | ok value =>
    have few : (written16 bigend value.1).length ≤ 4 := by
      rw [length_written16]
      split <;> decide
    rw [oneUtf8ToUtf16_of_decoded decoded] at isE2big
    split at isE2big
    · cases isE2big
    · split at isE2big
      · rename_i full
        exact (full.trans_le few).trans (by decide)
      · cases isE2big

theorem oneUtf16ToUtf8_e2big {bigend : Bool} {inbuf : List UInt8} {left : Nat}
    (isE2big : oneUtf16ToUtf8 bigend inbuf left = .error .e2big) : left < outbufBlockSize := by
  unfold oneUtf16ToUtf8 at isE2big
  split at isE2big
  · rename_i b0 b1 other
    have unitLt := loadUnit_lt bigend b0 b1
    dsimp only at isE2big
    split at isE2big
    · cases isE2big
    · split at isE2big
      · split at isE2big
        · rename_i high b2 b3 last
          have lowLt := loadUnit_lt bigend b2 b3
          split at isE2big
          · cases isE2big
          · exact encoded_e2big (by omega) isE2big
        · cases isE2big
      · exact encoded_e2big (by omega) isE2big
  · cases isE2big

def conversion (one : Bool → List UInt8 → Nat → Converted)
    {Allowed : Nat → Prop} {source target : Bool → Nat → List UInt8}
    (transcodes : ∀ bigend, Transcodes (one bigend) Allowed (source bigend) (target bigend))
    (fits : ∀ {bigend inbuf left}, one bigend inbuf left = .error .e2big →
      left < outbufBlockSize) : OneConversion where
  convert := one
  reads := fun converted => ((transcodes _).reads converted).1
  writes := fun converted => ((transcodes _).reads converted).2
  fits := fits

def convertUtf8Utf32 : Bool → List UInt8 → Strbuf → Except Errno Strbuf :=
  conversionLoop (conversion oneUtf8ToUtf32 utf8ToUtf32_transcodes oneUtf8ToUtf32_e2big)

def convertUtf32Utf8 : Bool → List UInt8 → Strbuf → Except Errno Strbuf :=
  conversionLoop (conversion oneUtf32ToUtf8 utf32ToUtf8_transcodes oneUtf32ToUtf8_e2big)

def convertUtf8Utf16 : Bool → List UInt8 → Strbuf → Except Errno Strbuf :=
  conversionLoop (conversion oneUtf8ToUtf16 utf8ToUtf16_transcodes oneUtf8ToUtf16_e2big)

def convertUtf16Utf8 : Bool → List UInt8 → Strbuf → Except Errno Strbuf :=
  conversionLoop (conversion oneUtf16ToUtf8 utf16ToUtf8_transcodes oneUtf16ToUtf8_e2big)

def Appends (result : Except Errno Strbuf) (buf : Strbuf) (output : List UInt8) : Prop :=
  ∃ after, result = .ok after ∧ after.text = buf.text ++ output

theorem conversionLoop_ok {one : OneConversion} {bigend : Bool} {inbuf written rest : List UInt8}
    {buf : Strbuf} (converted : one.convert bigend inbuf buf.outbytesleft = .ok (written, rest)) :
    conversionLoop one bigend inbuf buf =
      if rest = [] then .ok (buf.append written (one.writes converted))
      else conversionLoop one bigend rest (buf.append written (one.writes converted)) := by
  rw [conversionLoop]
  split
  · rename_i written' rest' converted'
    rw [converted, Except.ok.injEq, Prod.mk.injEq] at converted'
    obtain ⟨rfl, rfl⟩ := converted'
    rfl
  · rename_i errno failed
    rw [converted] at failed
    cases failed

theorem conversionLoop_error {one : OneConversion} {bigend : Bool} {inbuf : List UInt8}
    {buf : Strbuf} {errno : Errno}
    (failed : one.convert bigend inbuf buf.outbytesleft = .error errno) :
    conversionLoop one bigend inbuf buf =
      if inbuf = [] then .ok buf
      else if errno = .e2big then conversionLoop one bigend inbuf buf.grow
      else .error errno := by
  rw [conversionLoop]
  split
  · rename_i written rest converted
    rw [failed] at converted
    cases converted
  · rename_i errno' failed'
    rw [failed, Except.error.injEq] at failed'
    rw [failed']

namespace Transcodes

variable {convert : List UInt8 → Nat → Converted} {Allowed : Nat → Prop}
  {source target : Nat → List UInt8}

theorem step_eq (transcodes : Transcodes convert Allowed source target) {c left : Nat}
    {written rest more : List UInt8} (allowed : Allowed c)
    (converted : convert (source c ++ more) left = .ok (written, rest)) :
    written = target c ∧ rest = more := by
  by_cases room : left < (target c).length
  · rw [transcodes.retries allowed room] at converted
    cases converted
  · have direct : convert (source c ++ more) left = .ok (target c, more) :=
      transcodes.ok_iff.mpr ⟨c, allowed, rfl, rfl, Nat.not_lt.mp room⟩
    rw [direct, Except.ok.injEq, Prod.mk.injEq] at converted
    exact ⟨converted.1.symm, converted.2.symm⟩

theorem step_error (transcodes : Transcodes convert Allowed source target) {c left : Nat}
    {errno : Errno} {more : List UInt8} (allowed : Allowed c)
    (failed : convert (source c ++ more) left = .error errno) : errno = .e2big := by
  by_cases room : left < (target c).length
  · rw [transcodes.retries allowed room, Except.error.injEq] at failed
    exact failed.symm
  · rw [transcodes.ok_iff.mpr ⟨c, allowed, rfl, rfl, Nat.not_lt.mp room⟩] at failed
    cases failed

theorem flatMap_eq_nil (transcodes : Transcodes convert Allowed source target) {cs : List Nat}
    (empty : cs.flatMap source = []) : cs = [] := by
  cases cs with
  | nil => rfl
  | cons c cs => exact absurd (List.append_eq_nil_iff.mp empty).1 (transcodes.nonempty c)

end Transcodes

theorem conversionLoop_iff {one : OneConversion} {bigend : Bool} {Allowed : Nat → Prop}
    {source target : Nat → List UInt8}
    (transcodes : Transcodes (one.convert bigend) Allowed source target) (inbuf : List UInt8)
    (buf : Strbuf) (text : List UInt8) :
    (∃ after, conversionLoop one bigend inbuf buf = .ok after ∧ after.text = text) ↔
      ∃ cs : List Nat, (∀ c ∈ cs, Allowed c) ∧ inbuf = cs.flatMap source ∧
        text = buf.text ++ cs.flatMap target := by
  induction inbuf, buf using conversionLoop.induct one bigend with
  | case1 inbuf buf written converted =>
    rw [conversionLoop_ok converted, if_pos rfl]
    constructor
    · rintro ⟨after, isAfter, rfl⟩
      cases isAfter
      obtain ⟨c, allowed, isInbuf, rfl, -⟩ := transcodes.ok_iff.mp converted
      refine ⟨[c], ?_, ?_, ?_⟩
      · simpa using allowed
      · simpa using isInbuf
      · simp [Strbuf.append]
    · rintro ⟨cs, allowed, rfl, rfl⟩
      refine ⟨_, rfl, ?_⟩
      cases cs with
      | nil =>
        have shorter := one.reads converted
        simp at shorter
      | cons c cs =>
        obtain ⟨rfl, empty⟩ := transcodes.step_eq (allowed c List.mem_cons_self) converted
        obtain rfl := transcodes.flatMap_eq_nil empty.symm
        simp [Strbuf.append]
  | case2 inbuf buf written rest converted more ih =>
    rw [conversionLoop_ok converted, if_neg more, ih]
    constructor
    · rintro ⟨cs, allowed, rfl, rfl⟩
      obtain ⟨c, first, isInbuf, rfl, -⟩ := transcodes.ok_iff.mp converted
      refine ⟨c :: cs, ?_, isInbuf, ?_⟩
      · simpa using ⟨first, allowed⟩
      · simp [Strbuf.append]
    · rintro ⟨cs, allowed, rfl, rfl⟩
      cases cs with
      | nil =>
        have shorter := one.reads converted
        simp at shorter
      | cons c cs =>
        obtain ⟨rfl, rfl⟩ := transcodes.step_eq (allowed c List.mem_cons_self) converted
        refine ⟨cs, fun c member => allowed c (List.mem_cons_of_mem _ member), rfl, ?_⟩
        simp [Strbuf.append]
  | case3 buf errno failed =>
    rw [conversionLoop_error failed, if_pos rfl]
    constructor
    · rintro ⟨after, isAfter, rfl⟩
      cases isAfter
      exact ⟨[], nofun, rfl, by simp⟩
    · rintro ⟨cs, -, empty, rfl⟩
      rw [transcodes.flatMap_eq_nil empty.symm]
      exact ⟨buf, rfl, by simp⟩
  | case4 inbuf buf nonempty failed ih =>
    rw [conversionLoop_error failed, if_neg nonempty, if_pos rfl, ih]
    rfl
  | case5 inbuf buf errno failed nonempty notE2big =>
    rw [conversionLoop_error failed, if_neg nonempty, if_neg notE2big]
    refine iff_of_false nofun ?_
    rintro ⟨cs, allowed, rfl, -⟩
    cases cs with
    | nil => exact nonempty rfl
    | cons c cs => exact notE2big (transcodes.step_error (allowed c List.mem_cons_self) failed)

theorem appends_iff (one : OneConversion) {bigend : Bool} {Allowed : Nat → Prop}
    {source target : Nat → List UInt8}
    (transcodes : Transcodes (one.convert bigend) Allowed source target) (inbuf : List UInt8)
    (buf : Strbuf) (output : List UInt8) :
    Appends (conversionLoop one bigend inbuf buf) buf output ↔
      ∃ cs : List Nat, (∀ c ∈ cs, Allowed c) ∧ inbuf = cs.flatMap source ∧
        output = cs.flatMap target := by
  unfold Appends
  rw [conversionLoop_iff transcodes]
  simp only [List.append_cancel_left_eq]

theorem rejects {one : OneConversion} {bigend : Bool} {Allowed : Nat → Prop}
    {source target : Nat → List UInt8}
    (transcodes : Transcodes (one.convert bigend) Allowed source target) {inbuf : List UInt8}
    (other : ∀ cs : List Nat, (∀ c ∈ cs, Allowed c) → inbuf ≠ cs.flatMap source) (buf : Strbuf) :
    ∃ errno, conversionLoop one bigend inbuf buf = .error errno := by
  cases converted : conversionLoop one bigend inbuf buf with
  | error errno => exact ⟨errno, rfl⟩
  | ok after =>
    obtain ⟨cs, allowed, isInbuf, -⟩ :=
      (conversionLoop_iff transcodes inbuf buf after.text).mp ⟨after, converted, rfl⟩
    exact absurd isInbuf (other cs allowed)

def RoundTrips (there back : List UInt8 → Strbuf → Except Errno Strbuf)
    (wide : Nat → List UInt8) (cs : List Nat) : Prop :=
  ∀ buf, Appends (there (cs.flatMap utf8) buf) buf (cs.flatMap wide) ∧
    Appends (back (cs.flatMap wide) buf) buf (cs.flatMap utf8)

def Rejects (convert : List UInt8 → Strbuf → Except Errno Strbuf) (Allowed : Nat → Prop)
    (source : Nat → List UInt8) : Prop :=
  ∀ inbuf, (∀ cs : List Nat, (∀ c ∈ cs, Allowed c) → inbuf ≠ cs.flatMap source) →
    ∀ buf, ∃ errno, convert inbuf buf = .error errno

theorem utf8_flatMap_inj {cs ds : List Nat} (csBounded : ∀ c ∈ cs, c ≤ 0x7FFFFFFF)
    (dsBounded : ∀ d ∈ ds, d ≤ 0x7FFFFFFF) (same : cs.flatMap utf8 = ds.flatMap utf8) : cs = ds :=
  Lib.flatMap_code_inj (fun c => c ≤ 0x7FFFFFFF) utf8_ne_nil utf8_append_inj csBounded dsBounded same

theorem utf32_roundTrips_iff {bigend : Bool} {cs : List Nat} (characters : ∀ c ∈ cs, Character c) :
    RoundTrips (convertUtf8Utf32 bigend) (convertUtf32Utf8 bigend) (utf32 bigend) cs ↔
      ∀ c ∈ cs, ¬Missed c ∧ c ≠ 0x7FFFFFFF := by
  have there := appends_iff (conversion oneUtf8ToUtf32 utf8ToUtf32_transcodes
    oneUtf8ToUtf32_e2big) (utf8ToUtf32_transcodes bigend) (cs.flatMap utf8)
  have back := appends_iff (conversion oneUtf32ToUtf8 utf32ToUtf8_transcodes
    oneUtf32ToUtf8_e2big) (utf32ToUtf8_transcodes bigend) (cs.flatMap (utf32 bigend))
  unfold RoundTrips convertUtf8Utf32 convertUtf32Utf8
  simp only [there, back]
  constructor
  · intro roundTrips c member
    obtain ⟨⟨ds, dsAllowed, isDs, -⟩, es, esAllowed, -, isEs⟩ := roundTrips ⟨[], 0, Nat.le_refl 0⟩
    have sameDs := utf8_flatMap_inj (fun c member => (characters c member).1)
      (fun d member => (dsAllowed d member).1.1) isDs
    have sameEs := utf8_flatMap_inj (fun c member => (characters c member).1)
      (fun e member => (esAllowed e member).1.1) isEs
    exact ⟨(dsAllowed c (sameDs ▸ member)).2, (esAllowed c (sameEs ▸ member)).2⟩
  · intro good _
    exact ⟨⟨cs, fun c member => ⟨characters c member, (good c member).1⟩, rfl, rfl⟩,
      cs, fun c member => ⟨characters c member, (good c member).2⟩, rfl, rfl⟩

theorem written16_flatMap_iff (bigend : Bool) (cs : List Nat) :
    (cs.flatMap (utf16 bigend)).length ≤ (cs.flatMap (written16 bigend)).length ∧
      (cs.flatMap (utf16 bigend) = cs.flatMap (written16 bigend) ↔ 0xFFFF ∉ cs) := by
  have single : ∀ c, (utf16 bigend c).length ≤ (written16 bigend c).length := by
    intro c
    unfold written16
    split
    · rw [List.length_append, length_twoBytes, length_twoBytes]
      exact (length_utf16 bigend c).2
    · exact Nat.le_refl _
  induction cs with
  | nil => simp
  | cons c cs ih =>
    obtain ⟨shorter, same⟩ := ih
    have first := single c
    simp only [List.flatMap_cons, List.length_append]
    refine ⟨Nat.add_le_add first shorter, ?_⟩
    by_cases last : c = 0xFFFF
    · subst last
      have longer : (utf16 bigend 0xFFFF).length < (written16 bigend 0xFFFF).length := by
        rw [length_written16, utf16, if_pos (by decide), length_twoBytes]
        decide
      refine iff_of_false ?_ (fun absent => absent List.mem_cons_self)
      intro equal
      have lengths := congrArg List.length equal
      rw [List.length_append, List.length_append] at lengths
      omega
    · have isFirst : written16 bigend c = utf16 bigend c := by rw [written16, if_neg last]
      rw [isFirst, List.append_cancel_left_eq, same, List.mem_cons]
      simp [Ne.symm last]

theorem utf16_roundTrips_iff {bigend : Bool} {cs : List Nat}
    (characters : ∀ c ∈ cs, Character c ∧ c ≤ 0x10FFFF) :
    RoundTrips (convertUtf8Utf16 bigend) (convertUtf16Utf8 bigend) (utf16 bigend) cs ↔
      0xFFFF ∉ cs := by
  have there := appends_iff (conversion oneUtf8ToUtf16 utf8ToUtf16_transcodes
    oneUtf8ToUtf16_e2big) (utf8ToUtf16_transcodes bigend) (cs.flatMap utf8)
  have back := appends_iff (conversion oneUtf16ToUtf8 utf16ToUtf8_transcodes
    oneUtf16ToUtf8_e2big) (utf16ToUtf8_transcodes bigend) (cs.flatMap (utf16 bigend))
  rw [← (written16_flatMap_iff bigend cs).2]
  unfold RoundTrips convertUtf8Utf16 convertUtf16Utf8
  simp only [there, back]
  constructor
  · intro roundTrips
    obtain ⟨⟨ds, dsAllowed, isDs, isWritten⟩, -⟩ := roundTrips ⟨[], 0, Nat.le_refl 0⟩
    have sameDs := utf8_flatMap_inj (fun c member => (characters c member).1.1)
      (fun d member => (dsAllowed d member).1.1) isDs
    rw [isWritten, sameDs]
  · intro isWritten _
    exact ⟨⟨cs, characters, rfl, isWritten⟩, cs, characters, rfl, rfl⟩

/-- Strings go from UTF-8 to the wider encodings and back but for those with a
character that a conversion mistakes, and nothing else is accepted. -/
theorem conversions_roundTrip (bigend : Bool) :
    (∀ cs : List Nat, (∀ c ∈ cs, Character c) →
      (RoundTrips (convertUtf8Utf32 bigend) (convertUtf32Utf8 bigend) (utf32 bigend) cs ↔
        ∀ c ∈ cs, ¬Missed c ∧ c ≠ 0x7FFFFFFF)) ∧
    (∀ cs : List Nat, (∀ c ∈ cs, Character c ∧ c ≤ 0x10FFFF) →
      (RoundTrips (convertUtf8Utf16 bigend) (convertUtf16Utf8 bigend) (utf16 bigend) cs ↔
        0xFFFF ∉ cs)) ∧
    Rejects (convertUtf8Utf32 bigend) Character utf8 ∧
    Rejects (convertUtf32Utf8 bigend) Character (utf32 bigend) ∧
    Rejects (convertUtf8Utf16 bigend) (fun c => Character c ∧ c ≤ 0x10FFFF) utf8 ∧
    Rejects (convertUtf16Utf8 bigend) (fun c => Character c ∧ c ≤ 0x10FFFF) (utf16 bigend) := by
  refine ⟨fun cs => utf32_roundTrips_iff, fun cs => utf16_roundTrips_iff, ?_, ?_, ?_, ?_⟩
  · intro inbuf other
    exact rejects (utf8ToUtf32_transcodes bigend) fun cs allowed =>
      other cs fun c member => (allowed c member).1
  · intro inbuf other
    exact rejects (utf32ToUtf8_transcodes bigend) fun cs allowed =>
      other cs fun c member => (allowed c member).1
  · intro inbuf other
    exact rejects (utf8ToUtf16_transcodes bigend) other
  · intro inbuf other
    exact rejects (utf16ToUtf8_transcodes bigend) other

/-- A string of characters of one to six bytes. -/
theorem conversions_roundTrip_longest :
    RoundTrips (convertUtf8Utf32 true) (convertUtf32Utf8 true) (utf32 true)
      [0x41, 0x7C0, 0xFFFF, 0x10FFFF, 0x2000000, 0x7FFFFFFE] ∧
    RoundTrips (convertUtf8Utf16 false) (convertUtf16Utf8 false) (utf16 false)
      [0x41, 0x7C0, 0xFFFE, 0x10000, 0x10FFFF] :=
  ⟨((conversions_roundTrip true).1 _ (by decide)).mpr (by decide),
    ((conversions_roundTrip false).2.1 _ (by decide)).mpr (by decide)⟩

/-- Characters that do not make the round trip. -/
theorem mistaken_characters :
    (Character 0x1000000 ∧ Character 0x7FFFFFFF ∧ Character 0xFFFF) ∧
    (oneUtf8ToUtf32 true (utf8 0x1000000) 256 = .error .eilseq ∧
      oneUtf32ToUtf8 true (utf32 true 0x7FFFFFFF) 256 = .error .eilseq ∧
      oneUtf8ToUtf16 true (utf8 0xFFFF) 256 = .ok ([0xD7, 0xFF, 0xDF, 0xFF], [])) ∧
    (¬RoundTrips (convertUtf8Utf32 true) (convertUtf32Utf8 true) (utf32 true) [0x1000000] ∧
      ¬RoundTrips (convertUtf8Utf32 true) (convertUtf32Utf8 true) (utf32 true) [0x7FFFFFFF] ∧
      ¬RoundTrips (convertUtf8Utf16 true) (convertUtf16Utf8 true) (utf16 true) [0xFFFF]) := by
  refine ⟨by decide, by decide, ?_, ?_, ?_⟩
  · rw [utf32_roundTrips_iff (by decide)]
    decide
  · rw [utf32_roundTrips_iff (by decide)]
    decide
  · rw [utf16_roundTrips_iff (by decide)]
    decide

end GccCil.Libcpp.Charset
